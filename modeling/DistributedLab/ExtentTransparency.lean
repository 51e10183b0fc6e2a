import DistributedLab.ExtentCoherence

/-!
# One extent client and its server

Without other clients a cache should not be noticed: a caller sees what it would see if every
`put` and `remove` were made on the server's map at once.  An extent that is not among the cached
attributes has either not been loaded or has been removed since.  `get` and `getattr` take it
for the first, `flush` for the second.  So the cache is transparent as long as nobody asks for an
extent that is removed here and still at the server, and nobody flushes an extent that is not
loaded.
-/

namespace DistributedLab.Extent

open Transition

/-! ### Whole calls -/

/-- A call to the server, from the answer to the next wait of the client. -/
def exchange (now later : UInt32) (junk : Attr) (e : ExtentClient) (s : ExtentServer)
    (access : Access) : ExtentClient × ExtentServer × Access :=
  match s.answer later junk access with
  | none => (e, s, access)
  | some (server, answered) =>
      match e.resume now answered with
      | none => (e, server, answered)
      | some (client, next) => (client, server, next)

/-- `get` from its beginning to its end, with the two calls that it makes at most. -/
def ExtentClient.getAll (e : ExtentClient) (s : ExtentServer) (eid : Nat) (now later : UInt32)
    (junk : Attr) : ExtentClient × ExtentServer × Access :=
  let first := exchange now later junk (e.get eid now).1 s (e.get eid now).2
  exchange now later junk first.1 first.2.1 first.2.2

def ExtentClient.getattrAll (e : ExtentClient) (s : ExtentServer) (eid : Nat) (now later : UInt32)
    (junk : Attr) : ExtentClient × ExtentServer × Access :=
  exchange now later junk (e.getattr eid).1 s (e.getattr eid).2

section Calls

variable {e : ExtentClient} {s : ExtentServer} {eid : Nat} {now later : UInt32} {junk attr : Attr}
  {buf : Buf}

theorem getAll_cached (hattr : e.attributes eid = some attr) (hcontent : e.contents eid = some buf) :
    e.getAll s eid now later junk =
      (e.setAttr eid { attr with atime := now }, s, .got eid .ok buf) := by
  simp [ExtentClient.getAll, ExtentClient.get, hattr, readContent_of_some hcontent,
    ExtentClient.touch, exchange, ExtentServer.answer]

theorem exchange_reading (hcontent : s.contents eid = some buf) :
    exchange now later junk e s (.reading eid) =
      (e.setContent eid buf, (s.get eid later).1, .got eid .ok buf) := by
  simp [exchange, ExtentServer.answer, ExtentServer.get, hcontent, ExtentClient.resume,
    ExtentClient.conclude]

theorem getAll_known (hattr : e.attributes eid = some attr) (hcontent : e.contents eid = none)
    (hserver : s.contents eid = some buf) :
    e.getAll s eid now later junk = ((e.setAttr eid { attr with atime := now }).setContent eid buf,
      (s.get eid later).1, .got eid .ok buf) := by
  have hget : e.get eid now = (e.setAttr eid { attr with atime := now }, .reading eid) := by
    simp [ExtentClient.get, hattr, readContent_of_none hcontent, ExtentClient.touch]
  unfold ExtentClient.getAll
  rw [hget, exchange_reading hserver]
  simp [exchange, ExtentServer.answer]

theorem getAll_loaded (hattr : e.attributes eid = none) (hcontent : e.contents eid = none)
    (hserver : s.contents eid = some buf) (hsize : s.attributes eid = some attr) :
    e.getAll s eid now later junk = ((e.setAttr eid { attr with atime := now }).setContent eid buf,
      (s.get eid later).1, .got eid .ok buf) := by
  have hfetch : exchange now later junk (e.get eid now).1 s (e.get eid now).2 =
      (e.setAttr eid { attr with atime := now }, s, .reading eid) := by
    simp [ExtentClient.get, hattr, exchange, ExtentServer.answer, ExtentServer.getattr, hsize,
      ExtentClient.resume, ExtentClient.readContent, ExtentClient.setAttr, hcontent,
      ExtentClient.touch]
  unfold ExtentClient.getAll
  rw [hfetch]
  exact exchange_reading hserver

theorem getAll_missing (hattr : e.attributes eid = none) (hcontent : e.contents eid = none)
    (hserver : s.contents eid = none) (hsize : s.attributes eid = none) :
    e.getAll s eid now later junk = (e.erase eid, s, .got eid .ioerr []) := by
  simp [ExtentClient.getAll, ExtentClient.get, hattr, exchange, ExtentServer.answer,
    ExtentServer.getattr, hsize, ExtentClient.resume, ExtentClient.readContent,
    ExtentClient.setAttr, hcontent, ExtentClient.touch, ExtentServer.get, hserver,
    ExtentClient.setContent, ExtentClient.conclude, ExtentClient.erase]

theorem getattrAll_cached (hattr : e.attributes eid = some attr) :
    e.getattrAll s eid now later junk = (e, s, .gotattr eid .ok attr) := by
  simp [ExtentClient.getattrAll, ExtentClient.getattr, hattr, exchange, ExtentServer.answer]

theorem getattrAll_loaded (hattr : e.attributes eid = none)
    (hsize : s.attributes eid = some attr) :
    e.getattrAll s eid now later junk = (e.setAttr eid attr, s, .gotattr eid .ok attr) := by
  simp [ExtentClient.getattrAll, ExtentClient.getattr, hattr, exchange, ExtentServer.answer,
    ExtentServer.getattr, hsize, ExtentClient.resume]

theorem getattrAll_missing (hattr : e.attributes eid = none) (hsize : s.attributes eid = none) :
    e.getattrAll s eid now later junk = (e.erase eid, s, .gotattr eid .ioerr junk) := by
  simp [ExtentClient.getattrAll, ExtentClient.getattr, hattr, exchange, ExtentServer.answer,
    ExtentServer.getattr, hsize, ExtentClient.resume]

end Calls

/-! ### The server's map -/

/-- The entry of an extent: its content, with attributes that have its size. -/
def ExtentServer.Holds (s : ExtentServer) (eid : Nat) (entry : Option Buf) : Prop :=
  s.contents eid = entry ∧
    (s.attributes eid).map Attr.size = entry.map fun buf => UInt32.ofNat buf.length

/-- `put` and `remove` keep the keys of the two maps the same. -/
def ExtentServer.Consistent (s : ExtentServer) : Prop := ∀ eid, s.Holds eid (s.contents eid)

section Server

variable {s : ExtentServer} {eid : Nat} {now junk : UInt32} {buf : Buf}

theorem ExtentServer.Holds.attributes_none (h : s.Holds eid none) : s.attributes eid = none :=
  Option.map_eq_none_iff.mp h.2

theorem ExtentServer.Holds.attributes_some (h : s.Holds eid (some buf)) :
    ∃ attr, s.attributes eid = some attr ∧ attr.size = UInt32.ofNat buf.length :=
  Option.map_eq_some_iff.mp h.2

theorem ExtentServer.Consistent.of_eid {t : ExtentServer} (h : s.Consistent)
    (hcontents : ∀ other, other ≠ eid → t.contents other = s.contents other)
    (hattributes : ∀ other, other ≠ eid → t.attributes other = s.attributes other)
    {entry : Option Buf} (heid : t.Holds eid entry) : t.Consistent := by
  intro other
  by_cases hother : other = eid
  · subst hother
    rw [heid.1]
    exact heid
  · refine ⟨rfl, ?_⟩
    rw [hattributes other hother, hcontents other hother]
    exact (h other).2

theorem ExtentServer.holds_put : (s.put eid buf now junk).1.Holds eid (some buf) := by
  simp [ExtentServer.Holds, ExtentServer.put]

theorem ExtentServer.Consistent.put (h : s.Consistent) :
    (s.put eid buf now junk).1.Consistent := by
  apply h.of_eid _ _ ExtentServer.holds_put
  · intro other hother
    exact Function.update_of_ne hother _ _
  · intro other hother
    exact Function.update_of_ne hother _ _

theorem ExtentServer.Consistent.holds_remove (h : s.Consistent) :
    (s.remove eid).1.Holds eid none := by
  rcases hcontents : s.contents eid with _ | buf
  · have hsame : s.remove eid = (s, .ioerr) := by simp [ExtentServer.remove, hcontents]
    rw [hsame, ← hcontents]
    exact h eid
  · simp [ExtentServer.remove, hcontents, ExtentServer.Holds]

theorem ExtentServer.contents_remove_of_ne {other : Nat} (hother : other ≠ eid) :
    (s.remove eid).1.contents other = s.contents other ∧
      (s.remove eid).1.attributes other = s.attributes other := by
  unfold ExtentServer.remove
  split
  · exact ⟨rfl, rfl⟩
  · exact ⟨Function.update_of_ne hother _ _, Function.update_of_ne hother _ _⟩

theorem ExtentServer.Consistent.remove (h : s.Consistent) : (s.remove eid).1.Consistent :=
  h.of_eid (fun _ hother => (ExtentServer.contents_remove_of_ne hother).1)
    (fun _ hother => (ExtentServer.contents_remove_of_ne hother).2) h.holds_remove

/-- `get` sets `atime` only. -/
theorem ExtentServer.Consistent.get (h : s.Consistent) : (s.get eid now).1.Consistent := by
  have heid := h eid
  rcases hcontents : s.contents eid with _ | buf
  · have hsame : s.get eid now = (s, .ioerr, []) := by simp [ExtentServer.get, hcontents]
    rw [hsame]
    exact h
  · rw [hcontents] at heid
    obtain ⟨attr, hattr, hsize⟩ := heid.attributes_some
    have hget : (s.get eid now).1 = { s with
        attributes := Function.update s.attributes eid (some { attr with atime := now }) } := by
      simp [ExtentServer.get, hcontents, hattr]
    rw [hget]
    refine h.of_eid (fun _ _ => rfl) (fun other hother => Function.update_of_ne hother _ _)
      ⟨hcontents, ?_⟩
    simp [hsize]

end Server

/-! ### The cache and the map -/

/-- The calls of a client, with the times and the uninitialised fields they happen to meet. -/
inductive Call where
  | get (eid : Nat) (now later : UInt32) (junk : Attr)
  | getattr (eid : Nat) (now later : UInt32) (junk : Attr)
  | put (eid : Nat) (buf : Buf) (now later : UInt32)
  | remove (eid : Nat)
  | flush (eid : Nat) (now junk : UInt32)
deriving DecidableEq, Repr

/-- The client, the server, and the map to which each `put` and `remove` is applied at once. -/
structure Mirror where
  client : ExtentClient
  server : ExtentServer
  map : Nat → Option Buf

def Mirror.step (s : Mirror) : Call → Option Mirror
  | .get eid now later junk =>
      let out := s.client.getAll s.server eid now later junk
      some { s with client := out.1, server := out.2.1 }
  | .getattr eid now later junk =>
      let out := s.client.getattrAll s.server eid now later junk
      some { s with client := out.1, server := out.2.1 }
  | .put eid buf now later =>
      some { s with
        client := s.client.put eid buf now later
        map := Function.update s.map eid (some buf) }
  | .remove eid =>
      some { s with client := s.client.remove eid, map := Function.update s.map eid none }
  | .flush eid now junk =>
      let out := s.client.flush s.server eid now junk
      some { s with client := out.1, server := out.2.1 }

def mirror : System Mirror Call where
  init := fun s => s.client = ExtentClient.new ∧ s.server.Consistent ∧ s.map = s.server.contents
  step := Mirror.step

/-- What `get` on a map returns. -/
def found : Option Buf → Status × Buf
  | none => (.ioerr, [])
  | some buf => (.ok, buf)

/-- The call gives what the map gives, and a `flush` brings the map's entry to the server. -/
def Mirror.Transparent (s : Mirror) : Call → Prop
  | .get eid now later junk => (s.client.getAll s.server eid now later junk).2.2 =
      .got eid (found (s.map eid)).1 (found (s.map eid)).2
  | .getattr eid now later junk =>
      ∃ attr, (s.client.getattrAll s.server eid now later junk).2.2 =
          .gotattr eid (found (s.map eid)).1 attr ∧
        ∀ buf, s.map eid = some buf → attr.size = UInt32.ofNat buf.length
  | .put _ _ _ _ => True
  | .remove _ => True
  | .flush eid now junk => (s.client.flush s.server eid now junk).2.1.Holds eid (s.map eid)

/-- `get` and `getattr` are not called on an extent that is removed while the server has it, and
    `flush` not on an extent that there is but that is not among the cached attributes. -/
def Mirror.fits (s : Mirror) : Call → Bool
  | .get eid _ _ _ => (s.map eid).isSome || (s.server.contents eid).isNone
  | .getattr eid _ _ _ => (s.map eid).isSome || (s.server.contents eid).isNone
  | .put _ _ _ _ => true
  | .remove _ => true
  | .flush eid _ _ => (s.client.attributes eid).isSome || (s.map eid).isNone

/-- One extent: the cached attributes and content, the server's content and the map's entry. -/
inductive Entry : Option Attr → Option Buf → Option Buf → Option Buf → Prop
  | missing : Entry none none none none
  | unloaded (buf : Buf) : Entry none none (some buf) (some buf)
  | removed (buf : Buf) : Entry none none (some buf) none
  | known {attr : Attr} {buf : Buf} (hsize : attr.size = UInt32.ofNat buf.length) :
      Entry (some attr) none (some buf) (some buf)
  | cached {attr : Attr} {buf : Buf} (hsize : attr.size = UInt32.ofNat buf.length)
      (kept : Option Buf) : Entry (some attr) (some buf) kept (some buf)

theorem entry_unloaded (kept : Option Buf) : Entry none none kept kept := by
  rcases kept with _ | buf
  · exact .missing
  · exact .unloaded buf

structure Mirror.Sound (s : Mirror) : Prop where
  server : s.server.Consistent
  entry : ∀ eid, Entry (s.client.attributes eid) (s.client.contents eid) (s.server.contents eid)
    (s.map eid)

section Sound

variable {s : Mirror} {eid : Nat}

theorem Mirror.Sound.update (h : s.Sound) {client : ExtentClient} {server : ExtentServer}
    {map : Nat → Option Buf} (hclient : SameOff eid s.client client)
    (hconsistent : server.Consistent)
    (hserver : ∀ other, other ≠ eid → server.contents other = s.server.contents other)
    (hmap : ∀ other, other ≠ eid → map other = s.map other)
    (hentry : Entry (client.attributes eid) (client.contents eid) (server.contents eid)
      (map eid)) : Mirror.Sound ⟨client, server, map⟩ := by
  refine ⟨hconsistent, fun other => ?_⟩
  by_cases hother : other = eid
  · subst hother
    exact hentry
  · dsimp only
    rw [(hclient other hother).1, (hclient other hother).2, hserver other hother,
      hmap other hother]
    exact h.entry other

theorem Mirror.Sound.holds (h : s.Sound) {kept : Option Buf}
    (hkept : s.server.contents eid = kept) : s.server.Holds eid kept :=
  hkept ▸ h.server eid

theorem Mirror.Sound.erased (h : s.Sound) (hkept : s.server.contents eid = none)
    (hmap : s.map eid = none) : Mirror.Sound ⟨s.client.erase eid, s.server, s.map⟩ := by
  refine h.update sameOff_erase h.server (fun _ _ => rfl) (fun _ _ => rfl) ?_
  rw [hkept, hmap]
  simpa [ExtentClient.erase] using Entry.missing

/-- The server is asked for the content. -/
theorem Mirror.Sound.loaded (h : s.Sound) {attr : Attr} {buf : Buf} (now later : UInt32)
    (hmap : s.map eid = some buf) (hsize : attr.size = UInt32.ofNat buf.length) :
    Mirror.Sound ⟨(s.client.setAttr eid { attr with atime := now }).setContent eid buf,
      (s.server.get eid later).1, s.map⟩ := by
  refine h.update (sameOff_setAttr.trans sameOff_setContent) h.server.get ?_ (fun _ _ => rfl) ?_
  · intro other _
    rw [contents_get]
  · have hentry : Entry (some { attr with atime := now }) (some buf)
        (s.server.contents eid) (some buf) := by
      apply Entry.cached
      exact hsize
    rw [contents_get, hmap]
    simpa [ExtentClient.setContent, ExtentClient.setAttr] using hentry

/-- The caller of `get` sees the map exactly if the call fits, and then the cache mirrors the map
    as before. -/
theorem Mirror.Sound.get (h : s.Sound) (now later : UInt32) (junk : Attr) :
    (s.Transparent (.get eid now later junk) ↔ s.fits (.get eid now later junk) = true) ∧
      ∀ t, s.fits (.get eid now later junk) = true →
        s.step (.get eid now later junk) = some t → t.Sound := by
  have hentry := h.entry eid
  simp only [Mirror.Transparent, Mirror.fits, Mirror.step]
  generalize hattr : s.client.attributes eid = attr? at hentry
  generalize hcontent : s.client.contents eid = content? at hentry
  generalize hkept : s.server.contents eid = kept? at hentry
  generalize hmap : s.map eid = entry? at hentry
  have hholds := h.holds hkept
  cases hentry with
  | missing =>
      rw [getAll_missing hattr hcontent hkept hholds.attributes_none]
      refine ⟨by simp [found], fun t _ ht => ?_⟩
      cases ht
      exact h.erased hkept hmap
  | unloaded buf =>
      obtain ⟨attr, hsome, hsize⟩ := hholds.attributes_some
      rw [getAll_loaded hattr hcontent hkept hsome]
      refine ⟨by simp [found], fun t _ ht => ?_⟩
      cases ht
      exact h.loaded now later hmap hsize
  | removed buf =>
      -- the server's content comes back
      obtain ⟨attr, hsome, hsize⟩ := hholds.attributes_some
      rw [getAll_loaded hattr hcontent hkept hsome]
      exact ⟨by simp [found], fun t hfits => absurd hfits (by simp)⟩
  | known hsize =>
      rw [getAll_known hattr hcontent hkept]
      refine ⟨by simp [found], fun t _ ht => ?_⟩
      cases ht
      exact h.loaded now later hmap hsize
  | @cached attr buf hsize =>
      rw [getAll_cached hattr hcontent]
      refine ⟨by simp [found], fun t _ ht => ?_⟩
      cases ht
      refine h.update sameOff_setAttr h.server (fun _ _ => rfl) (fun _ _ => rfl) ?_
      have hentry : Entry (some { attr with atime := now }) (some buf)
          (s.server.contents eid) (some buf) := by
        apply Entry.cached
        exact hsize
      rw [hmap]
      simpa [ExtentClient.setAttr, hcontent] using hentry

theorem Mirror.Sound.getattr (h : s.Sound) (now later : UInt32) (junk : Attr) :
    (s.Transparent (.getattr eid now later junk) ↔
      s.fits (.getattr eid now later junk) = true) ∧
      ∀ t, s.fits (.getattr eid now later junk) = true →
        s.step (.getattr eid now later junk) = some t → t.Sound := by
  have hentry := h.entry eid
  simp only [Mirror.Transparent, Mirror.fits, Mirror.step]
  generalize hattr : s.client.attributes eid = attr? at hentry
  generalize hcontent : s.client.contents eid = content? at hentry
  generalize hkept : s.server.contents eid = kept? at hentry
  generalize hmap : s.map eid = entry? at hentry
  have hholds := h.holds hkept
  cases hentry with
  | missing =>
      rw [getattrAll_missing hattr hholds.attributes_none]
      refine ⟨by simp [found], fun t _ ht => ?_⟩
      cases ht
      exact h.erased hkept hmap
  | unloaded buf =>
      obtain ⟨attr, hsome, hsize⟩ := hholds.attributes_some
      rw [getattrAll_loaded hattr hsome]
      refine ⟨by simp [found, hsize], fun t _ ht => ?_⟩
      cases ht
      refine h.update sameOff_setAttr h.server (fun _ _ => rfl) (fun _ _ => rfl) ?_
      rw [hkept, hmap]
      simpa [ExtentClient.setAttr, hcontent] using Entry.known hsize
  | removed buf =>
      obtain ⟨attr, hsome, hsize⟩ := hholds.attributes_some
      rw [getattrAll_loaded hattr hsome]
      exact ⟨by simp [found], fun t hfits => absurd hfits (by simp)⟩
  | known hsize | cached hsize =>
      rw [getattrAll_cached hattr]
      refine ⟨by simp [found, hsize], fun t _ ht => ?_⟩
      cases ht
      exact h

theorem Mirror.Sound.put (h : s.Sound) (buf : Buf) (now later : UInt32) :
    Mirror.Sound ⟨s.client.put eid buf now later, s.server,
      Function.update s.map eid (some buf)⟩ := by
  refine h.update (sameOff_setAttr.trans sameOff_setContent) h.server (fun _ _ => rfl)
    (fun other hother => Function.update_of_ne hother _ _) ?_
  have hentry : Entry
      (some { (s.client.attributes eid).getD Attr.zero with
        mtime := now, ctime := later, size := UInt32.ofNat buf.length }) (some buf)
      (s.server.contents eid) (some buf) := .cached rfl _
  simpa [ExtentClient.put, ExtentClient.setContent, ExtentClient.setAttr] using hentry

theorem Mirror.Sound.remove (h : s.Sound) :
    Mirror.Sound ⟨s.client.remove eid, s.server, Function.update s.map eid none⟩ := by
  refine h.update sameOff_erase h.server (fun _ _ => rfl)
    (fun other hother => Function.update_of_ne hother _ _) ?_
  have hentry : Entry none none (s.server.contents eid) none := by
    rcases s.server.contents eid with _ | buf
    · exact .missing
    · exact .removed buf
  simpa [ExtentClient.remove, ExtentClient.erase] using hentry

/-- After a `flush` the extent is not loaded, and the server has the entry of the map. -/
theorem Mirror.Sound.flushed (h : s.Sound) {server : ExtentServer} (hconsistent : server.Consistent)
    (hserver : ∀ other, other ≠ eid → server.contents other = s.server.contents other)
    (hholds : server.Holds eid (s.map eid)) :
    Mirror.Sound ⟨s.client.erase eid, server, s.map⟩ := by
  refine h.update sameOff_erase hconsistent hserver (fun _ _ => rfl) ?_
  rw [hholds.1]
  simpa [ExtentClient.erase] using entry_unloaded (s.map eid)

theorem Mirror.Sound.flush (h : s.Sound) (now junk : UInt32) :
    (s.Transparent (.flush eid now junk) ↔ s.fits (.flush eid now junk) = true) ∧
      ∀ t, s.fits (.flush eid now junk) = true →
        s.step (.flush eid now junk) = some t → t.Sound := by
  have hentry := h.entry eid
  simp only [Mirror.Transparent, Mirror.fits, Mirror.step]
  generalize hattr : s.client.attributes eid = attr? at hentry
  generalize hcontent : s.client.contents eid = content? at hentry
  generalize hkept : s.server.contents eid = kept? at hentry
  generalize hmap : s.map eid = entry? at hentry
  have hremove : attr? = none → s.client.flush s.server eid now junk =
      (s.client.erase eid, s.server.remove eid) := by
    rintro rfl
    simp [ExtentClient.flush, hattr]
  have hremoved : s.map eid = none →
      Mirror.Sound ⟨s.client.erase eid, (s.server.remove eid).1, s.map⟩ := by
    intro hnone
    refine h.flushed h.server.remove (fun _ hother => ?_) (hnone ▸ h.server.holds_remove)
    exact (ExtentServer.contents_remove_of_ne hother).1
  cases hentry with
  | missing =>
      rw [hremove rfl]
      refine ⟨by simp [h.server.holds_remove], fun t _ ht => ?_⟩
      cases ht
      exact hremoved hmap
  | unloaded buf =>
      -- the extent is lost
      rw [hremove rfl]
      refine ⟨?_, fun t hfits => absurd hfits (by simp)⟩
      have hlost : (s.server.remove eid).1.Holds eid none := h.server.holds_remove
      simp [ExtentServer.Holds, hlost.1]
  | removed buf =>
      rw [hremove rfl]
      refine ⟨by simp [h.server.holds_remove], fun t _ ht => ?_⟩
      cases ht
      exact hremoved hmap
  | known hsize =>
      have hflush : s.client.flush s.server eid now junk =
          (s.client.erase eid, s.server, .ok) := by
        simp [ExtentClient.flush, hattr, hcontent]
      rw [hflush]
      refine ⟨by simp [h.holds hkept], fun t _ ht => ?_⟩
      cases ht
      exact h.flushed h.server (fun _ _ => rfl) (hmap ▸ h.holds hkept)
  | @cached attr buf hsize =>
      have hflush : s.client.flush s.server eid now junk =
          (s.client.erase eid, s.server.put eid buf now junk) := by
        simp [ExtentClient.flush, hattr, hcontent]
      rw [hflush]
      refine ⟨by simp [ExtentServer.holds_put], fun t _ ht => ?_⟩
      cases ht
      refine h.flushed h.server.put (fun other hother => ?_) (hmap ▸ ExtentServer.holds_put)
      exact Function.update_of_ne hother _ _

end Sound

/-- **The cache is transparent** for a call, after any calls that all fit, exactly if this call
    fits as well. -/
theorem transparent_iff_fits {s : Mirror}
    (h : mirror.Reach (fun state call => state.fits call = true) s) (call : Call) :
    s.Transparent call ↔ s.fits call = true := by
  have hsound : s.Sound := by
    apply h.invariant (P := Mirror.Sound)
    · rintro start ⟨hclient, hserver, hmap⟩
      refine ⟨hserver, fun eid => ?_⟩
      rw [hclient, hmap]
      exact entry_unloaded _
    · intro state next call hstate hfits hstep
      cases call with
      | get eid now later junk => exact (hstate.get now later junk).2 next hfits hstep
      | getattr eid now later junk => exact (hstate.getattr now later junk).2 next hfits hstep
      | put eid buf now later =>
          cases hstep
          exact hstate.put buf now later
      | remove eid =>
          cases hstep
          exact hstate.remove
      | flush eid now junk => exact (hstate.flush now junk).2 next hfits hstep
  cases call with
  | get eid now later junk => exact (hsound.get now later junk).1
  | getattr eid now later junk => exact (hsound.getattr now later junk).1
  | put eid buf now later => exact ⟨fun _ => rfl, fun _ => trivial⟩
  | remove eid => exact ⟨fun _ => rfl, fun _ => trivial⟩
  | flush eid now junk => exact (hsound.flush now junk).1

/-! The server has the root directory, and the client nothing. -/

def Mirror.start : Mirror := ⟨ExtentClient.new, ExtentServer.new, ExtentServer.new.contents⟩

theorem consistent_new : ExtentServer.new.Consistent := by
  intro eid
  by_cases heid : eid = 1
  · subst heid
    exact ⟨rfl, rfl⟩
  · simp [ExtentServer.Holds, ExtentServer.new, heid]

theorem start_init : mirror.init Mirror.start := ⟨rfl, consistent_new, rfl⟩

theorem transparent_get_after_flush :
    ∃ s, mirror.Reach (fun state call => state.fits call = true) s ∧ s.map 2 = some aaa ∧
      s.Transparent (.get 2 7 7 Attr.zero) := by
  obtain ⟨s, hreach, hview⟩ : ∃ s, mirror.Reach (fun state call => state.fits call = true) s ∧
      (s.map 2, s.fits (.get 2 7 7 Attr.zero)) = (some aaa, true) :=
    System.Reach.of_exec Mirror.fits
      [.getattr 2 7 7 Attr.zero, .put 2 aaa 7 7, .remove 1, .flush 2 7 7, .flush 1 7 7] start_init
      (fun _ _ h => h) (by decide +kernel)
  obtain ⟨hmap, hfits⟩ := Prod.mk.inj hview
  exact ⟨s, hreach, hmap, (transparent_iff_fits hreach (.get 2 7 7 Attr.zero)).mpr hfits⟩

/-- After `remove` the root directory comes back from the server.  A `flush` of the root directory
    that is not loaded deletes it. -/
theorem absence_taken_for_the_other :
    (∃ s, mirror.Reach anyStep s ∧ ¬ s.Transparent (.get 1 7 7 Attr.zero)) ∧
      ∃ s, mirror.Reach anyStep s ∧ ¬ s.Transparent (.flush 1 7 7) := by
  constructor
  · obtain ⟨s, hreach, hview⟩ : ∃ s, mirror.Reach anyStep s ∧
        ((s.client.getAll s.server 1 7 7 Attr.zero).2.2, s.map 1) = (.got 1 .ok [], none) :=
      System.Reach.of_exec (fun _ _ => true) [.remove 1] start_init (fun _ _ _ => trivial)
        (by decide +kernel)
    obtain ⟨hgot, hmap⟩ := Prod.mk.inj hview
    refine ⟨s, hreach, ?_⟩
    simp [Mirror.Transparent, hgot, hmap, found]
  · obtain ⟨s, hreach, hview⟩ : ∃ s, mirror.Reach anyStep s ∧
        ((s.client.flush s.server 1 7 7).2.1.contents 1, s.map 1) = (none, some []) :=
      System.Reach.of_exec (fun _ _ => true) [] start_init (fun _ _ _ => trivial)
        (by decide +kernel)
    obtain ⟨hkept, hmap⟩ := Prod.mk.inj hview
    refine ⟨s, hreach, ?_⟩
    simp [Mirror.Transparent, ExtentServer.Holds, hkept, hmap]

end DistributedLab.Extent
