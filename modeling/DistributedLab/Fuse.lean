import DistributedLab.YfsDirectory

/-!
# The requests of the kernel

`fuse.cc` turns the requests of the kernel into calls of a `yfs_client`, one after the other, and
its results into replies.  `write` on a file that is not there replies with `ENOENT` as the number
of bytes written, and `lookup` replies with an entry that nobody has filled in if the attributes of
what it has found cannot be had.

A directory is sent as a buffer of entries, from which a reply takes the part that is asked for.
The layout of an entry is that of the FUSE library.
-/

namespace DistributedLab.Yfs

open Extent

/-! ### Attributes -/

/-- `struct stat`, as far as it is set. -/
structure Stat where
  ino : Nat
  mode : Nat
  nlink : Nat
  atime : Nat
  mtime : Nat
  ctime : Nat
  size : Nat
deriving DecidableEq, Repr

/-- `bzero`, and the number. -/
def Stat.blank (ino : Nat) : Stat := ⟨ino, 0, 0, 0, 0, 0, 0⟩

/-- `S_IFREG | 0666`. -/
def regularMode : Nat := 0o100666

/-- `S_IFDIR | 0777`. -/
def directoryMode : Nat := 0o040777

structure FileInfo where
  size : Nat
  atime : Nat
  mtime : Nat
  ctime : Nat
deriving DecidableEq, Repr

structure DirInfo where
  atime : Nat
  mtime : Nat
  ctime : Nat
deriving DecidableEq, Repr

section Attributes

variable (s : YfsClient) (inum : Nat) (m : Moment)

theorem YfsClient.fits_getattr :
    Mirror.fits ⟨s.client, s.server, s.content⟩ (.getattr inum m.now m.later m.junk) = true :=
  YfsClient.fits_get s inum m

theorem YfsClient.sound_getattr :
    Mirror.Sound ⟨(s.client.getattrAll s.server inum m.now m.later m.junk).1,
      (s.client.getattrAll s.server inum m.now m.later m.junk).2.1, s.content⟩ :=
  (s.sound.getattr m.now m.later m.junk).2 _ (s.fits_getattr inum m) rfl

/-- `ec->getattr`. -/
def YfsClient.extentAttr : Status × Attr × YfsClient :=
  let out := s.client.getattrAll s.server inum m.now m.later m.junk
  let state : YfsClient := ⟨out.1, out.2.1, sound_merged (s.sound_getattr inum m)⟩
  match out.2.2 with
  | .gotattr _ status attr => (status, attr, state)
  | _ => (.ioerr, m.junk, state)

def YfsClient.getfile : XxStatus × Option FileInfo × YfsClient :=
  match s.extentAttr inum m with
  | (.ok, a, s) => (.ok, some ⟨a.size.toNat, a.atime.toNat, a.mtime.toNat, a.ctime.toNat⟩, s)
  | (_, _, s) => (.ioerr, none, s)

def YfsClient.getdir : XxStatus × Option DirInfo × YfsClient :=
  match s.extentAttr inum m with
  | (.ok, a, s) => (.ok, some ⟨a.atime.toNat, a.mtime.toNat, a.ctime.toNat⟩, s)
  | (_, _, s) => (.ioerr, none, s)

def YfsClient.getattr : XxStatus × Stat × YfsClient :=
  if isfile inum then
    match s.getfile inum m with
    | (.ok, some info, s) =>
        (.ok, ⟨inum, regularMode, 1, info.atime, info.mtime, info.ctime, info.size⟩, s)
    | (ret, _, s) => (ret, .blank inum, s)
  else
    match s.getdir inum m with
    | (.ok, some info, s) =>
        (.ok, ⟨inum, directoryMode, 2, info.atime, info.mtime, info.ctime, 0⟩, s)
    | (ret, _, s) => (ret, .blank inum, s)

end Attributes

/-! ### Replies -/

/-- The errors of the replies, and 0. -/
inductive ReplyErr where
  | success
  | enoent
  | eexist
  | enotdir
  | enosys
deriving DecidableEq, Repr

/-- The value of `ENOENT`. -/
def enoentValue : Nat := 2

/-- `struct fuse_entry_param`. -/
structure EntryParam where
  ino : Nat
  attr : Stat
  attrTimeout : Nat
  entryTimeout : Nat
  generation : Nat
deriving DecidableEq, Repr

/-- Timeouts and generations are always 0. -/
def EntryParam.of (ino : Nat) (attr : Stat) : EntryParam := ⟨ino, attr, 0, 0, 0⟩

inductive Reply where
  | err (e : ReplyErr)
  | attr (st : Stat)
  | buf (bytes : Buf)
  | write (count : Nat)
  | entry (e : EntryParam)
  | create (e : EntryParam)
deriving DecidableEq, Repr

/-! ### Directories as buffers -/

/-- `fuse_dirent_size` and `fuse_add_dirent`, which puts a name, a number and an offset into a
    buffer of that size. -/
structure DirentFormat where
  direntSize : Nat → Nat
  addDirent : Buf → Nat → Nat → Buf
  pos : ∀ n, 0 < direntSize n
  length : ∀ name ino off, (addDirent name ino off).length = direntSize name.length

def littleEndian (width n : Nat) : Buf :=
  (List.range width).map fun i => UInt8.ofNat (n / 256 ^ i)

/-- `struct fuse_dirent` with the number, the offset, the length of the name and a type that is not
    set, and behind it the name, filled up to a multiple of eight. -/
def fuseDirent : DirentFormat where
  direntSize n := (24 + n + 7) / 8 * 8
  addDirent name ino off :=
    littleEndian 8 ino ++ (littleEndian 8 off ++ (littleEndian 4 name.length ++
      (littleEndian 4 0 ++ (name ++
        List.replicate ((24 + name.length + 7) / 8 * 8 - (24 + name.length)) 0))))
  pos n := by omega
  length name ino off := by
    simp only [List.length_append, littleEndian, List.length_map, List.length_range,
      List.length_replicate]
    omega

/-- The offset of an entry is where the next one begins. -/
def dirbufAdd (fmt : DirentFormat) (b name : Buf) (ino : Nat) : Buf :=
  b ++ fmt.addDirent name ino (b.length + fmt.direntSize name.length)

def dirbuf (fmt : DirentFormat) (listing : List (Buf × Nat)) : Buf :=
  listing.foldl (fun b e => dirbufAdd fmt b e.1 e.2) []

/-- Entries that begin at a place of the buffer, each with the place of the next one. -/
def direntsFrom (fmt : DirentFormat) : Nat → List (Buf × Nat) → Buf
  | _, [] => []
  | place, e :: rest =>
      fmt.addDirent e.1 e.2 (place + fmt.direntSize e.1.length) ++
        direntsFrom fmt (place + fmt.direntSize e.1.length) rest

def replyBufLimited (buf : Buf) (off maxsize : Nat) : Buf :=
  if off < buf.length then (buf.drop off).take (min (buf.length - off) maxsize) else []

section Dirents

variable {fmt : DirentFormat}

theorem foldl_dirbufAdd (listing : List (Buf × Nat)) (b : Buf) :
    listing.foldl (fun b e => dirbufAdd fmt b e.1 e.2) b =
      b ++ direntsFrom fmt b.length listing := by
  induction listing generalizing b with
  | nil => exact (List.append_nil b).symm
  | cons e rest ih =>
      have hlength : (dirbufAdd fmt b e.1 e.2).length = b.length + fmt.direntSize e.1.length := by
        rw [dirbufAdd, List.length_append, fmt.length]
      rw [List.foldl_cons, ih, hlength, dirbufAdd, direntsFrom, List.append_assoc]

theorem dirbuf_append (seen rest : List (Buf × Nat)) :
    dirbuf fmt (seen ++ rest) =
      dirbuf fmt seen ++ direntsFrom fmt (dirbuf fmt seen).length rest := by
  rw [dirbuf, List.foldl_append, foldl_dirbufAdd]
  rfl

theorem direntsFrom_append (place : Nat) (page more : List (Buf × Nat)) :
    direntsFrom fmt place (page ++ more) = direntsFrom fmt place page ++
      direntsFrom fmt (place + (direntsFrom fmt place page).length) more := by
  induction page generalizing place with
  | nil => rfl
  | cons e page ih =>
      rw [List.cons_append, direntsFrom, ih, direntsFrom, List.append_assoc, List.length_append,
        fmt.length, Nat.add_assoc place]

theorem direntsFrom_eq_nil {place : Nat} {listing : List (Buf × Nat)} :
    direntsFrom fmt place listing = [] ↔ listing = [] := by
  cases listing with
  | nil => exact iff_of_true rfl rfl
  | cons e rest =>
      refine iff_of_false (fun h => ?_) (List.cons_ne_nil _ _)
      have hlength := congrArg List.length h
      have hpos := fmt.pos e.1.length
      rw [direntsFrom, List.length_append, fmt.length, List.length_nil] at hlength
      omega

theorem replyBufLimited_eq (buf : Buf) (off maxsize : Nat) :
    replyBufLimited buf off maxsize = (buf.drop off).take maxsize := by
  unfold replyBufLimited
  split
  · rw [← List.length_drop, List.take_eq_take_min (i := maxsize), Nat.min_comm]
  · next hoff => rw [List.drop_eq_nil_of_le (Nat.le_of_not_lt hoff), List.take_nil]

/-- A reply goes on behind the entries that have been seen. -/
theorem replyBufLimited_dirbuf (seen rest : List (Buf × Nat)) (maxsize : Nat) :
    replyBufLimited (dirbuf fmt (seen ++ rest)) (dirbuf fmt seen).length maxsize =
      (direntsFrom fmt (dirbuf fmt seen).length rest).take maxsize := by
  rw [replyBufLimited_eq, dirbuf_append, List.drop_left]

end Dirents

/-! ### The handlers -/

section Handlers

variable (s : YfsClient)

def fuseserverGetattr (ino : Nat) (m : Moments) : Reply × YfsClient :=
  match s.getattr ino (m 0) with
  | (.ok, st, s) => (.attr st, s)
  | (_, _, s) => (.err .enoent, s)

/-- `toSet` is the bit `FUSE_SET_ATTR_SIZE`. -/
def fuseserverSetattr (ino : Nat) (toSet : Bool) (size : Nat) (m : Moments) : Reply × YfsClient :=
  if toSet then
    match s.setsize ino size m with
    | (.ok, s) =>
        match s.getattr ino (m 2) with
        | (.ok, st, s) => (.attr st, s)
        | (_, _, s) => (.err .enoent, s)
    | (_, s) => (.err .enoent, s)
  else (.err .enosys, s)

def fuseserverRead (ino size : Nat) (off : Int) (m : Moments) : Reply × YfsClient :=
  match s.read ino size off m with
  | (.ok, buf, s) => (.buf buf, s)
  | (_, _, s) => (.err .enoent, s)

/-- An error goes out as a number of bytes. -/
def fuseserverWrite (ino : Nat) (buf : Buf) (off : Int) (m : Moments) : Reply × YfsClient :=
  match s.write ino off buf m with
  | (.ok, s) => (.write buf.length, s)
  | (_, s) => (.write enoentValue, s)

/-- `fuseserver_createhelper` and `fuseserver_createdirhelper`, which differ in `f`. -/
def createhelper (f : Bool) (parent : Nat) (name : Buf) (random : Fin (2 ^ 31)) (m : Moments) :
    Option (XxStatus × Option EntryParam × YfsClient) :=
  (s.createfile parent f name random m).map fun
    | (.ok, inum, s) =>
        match s.getattr inum.toNat (m 3) with
        | (.ok, st, s) => (.ok, some (.of inum.toNat st), s)
        | (_, _, s) => (.ioerr, none, s)
    | (ret, _, s) => (ret, none, s)

/-- The reply to a request that creates something. -/
def replyCreated (ok : EntryParam → Reply) : XxStatus × Option EntryParam × YfsClient →
    Reply × YfsClient
  | (.ok, some e, s) => (ok e, s)
  | (.exist, _, s) => (.err .eexist, s)
  | (_, _, s) => (.err .enoent, s)

def fuseserverCreate (parent : Nat) (name : Buf) (random : Fin (2 ^ 31)) (m : Moments) :
    Option (Reply × YfsClient) :=
  (createhelper s true parent name random m).map (replyCreated .create)

def fuseserverMknod (parent : Nat) (name : Buf) (random : Fin (2 ^ 31)) (m : Moments) :
    Option (Reply × YfsClient) :=
  (createhelper s true parent name random m).map (replyCreated .entry)

def fuseserverMkdir (parent : Nat) (name : Buf) (random : Fin (2 ^ 31)) (m : Moments) :
    Option (Reply × YfsClient) :=
  (createhelper s false parent name random m).map (replyCreated .entry)

/-- `found` stays true if `getattr` fails; `junk` is what is in the entry then. -/
def fuseserverLookup (parent : Nat) (name : Buf) (junk : EntryParam) (m : Moments) :
    Reply × YfsClient :=
  match s.lookupfile parent name m with
  | (.exist, some inum, s) =>
      match s.getattr inum (m 1) with
      | (.ok, st, s) => (.entry (.of inum st), s)
      | (_, _, s) => (.entry junk, s)
  | (_, _, s) => (.err .enoent, s)

def fuseserverReaddir (fmt : DirentFormat) (ino size off : Nat) (m : Moments) :
    Reply × YfsClient :=
  match s.readdir ino m with
  | (.ok listing, s) => (.buf (replyBufLimited (dirbuf fmt listing) off size), s)
  | (.error .enotdir, s) => (.err .enotdir, s)
  | (.error .enoent, s) => (.err .enoent, s)

def fuseserverUnlink (parent : Nat) (name : Buf) (m : Moments) : Reply × YfsClient :=
  match s.unlink parent name m with
  | (.ok, s) => (.err .success, s)
  | (_, s) => (.err .enoent, s)

end Handlers

/-! ### The calls and the contents

What a call does depends on the contents of the extents, and on those that the server has.
-/

/-- Only caches and times differ. -/
structure YfsClient.Alike (s t : YfsClient) : Prop where
  content : t.content = s.content
  server : t.server.contents = s.server.contents

section Contents

variable {s : YfsClient} {inum : Nat} {m : Moment} {content : Buf}

/-- A sound state with the contents of `s` and its server's. -/
theorem YfsClient.alike_of_sound {client : ExtentClient} {server : ExtentServer}
    (hserver : server.contents = s.server.contents)
    (h : Mirror.Sound ⟨client, server, s.content⟩) :
    s.Alike ⟨client, server, sound_merged h⟩ := by
  refine ⟨funext fun eid => entry_eq_or (h.entry eid) fun hkept => ?_, hserver⟩
  have hkept : (s.server.contents eid).isSome = true := hserver ▸ hkept
  show (merged s.client s.server eid).isSome = true
  simp [merged, hkept]

theorem YfsClient.alike_get (s : YfsClient) (inum : Nat) (m : Moment) :
    s.Alike (s.get inum m).2.2 := by
  have hstate : (s.get inum m).2.2 = ⟨_, _, sound_merged (sound_get s inum m)⟩ := by
    unfold YfsClient.get
    dsimp only
    split <;> rfl
  rw [hstate]
  exact alike_of_sound
    ((contents_exchange _ _ _ _ _ _).trans (contents_exchange _ _ _ _ _ _)) (sound_get s inum m)

theorem YfsClient.get_ok (h : s.content inum = some content) :
    ∃ t, s.get inum m = (.ok, content, t) ∧ s.Alike t := by
  obtain ⟨t, hget, -⟩ := get_some (m := m) h
  have halike := alike_get s inum m
  rw [hget] at halike
  exact ⟨t, hget, halike⟩

theorem YfsClient.get_missing (h : s.content inum = none) :
    ∃ t, s.get inum m = (.noent, [], t) ∧ s.Alike t := by
  obtain ⟨t, hget⟩ := get_none (m := m) h
  have halike := alike_get s inum m
  rw [hget] at halike
  exact ⟨t, hget, halike⟩

theorem YfsClient.extentAttr_eq (s : YfsClient) (inum : Nat) (m : Moment) :
    ∃ attr t, s.extentAttr inum m = ((found (s.content inum)).1, attr, t) ∧ s.Alike t ∧
      ∀ content, s.content inum = some content → attr.size = UInt32.ofNat content.length := by
  obtain ⟨attr, hattr, hsize⟩ :=
    (s.sound.getattr m.now m.later m.junk).1.mpr (s.fits_getattr inum m)
  refine ⟨attr, ⟨_, _, sound_merged (s.sound_getattr inum m)⟩, ?_, ?_, hsize⟩
  · simp only [YfsClient.extentAttr, hattr]
    rfl
  · exact alike_of_sound (contents_exchange _ _ _ _ _ _) (s.sound_getattr inum m)

/-- The reply without its times. -/
def Stat.timeless (st : Stat) : Stat := { st with atime := 0, mtime := 0, ctime := 0 }

/-- The attributes of a file with this content, or of a directory, without their times. -/
def statOf (inum : Nat) (content : Buf) : Stat :=
  if isfile inum then ⟨inum, regularMode, 1, 0, 0, 0, content.length⟩
  else ⟨inum, directoryMode, 2, 0, 0, 0, 0⟩

theorem YfsClient.getattr_ok (h : s.content inum = some content)
    (hlength : isfile inum = true → content.length < 2 ^ 32) :
    ∃ st t, s.getattr inum m = (.ok, st, t) ∧ st.timeless = statOf inum content ∧ s.Alike t := by
  obtain ⟨attr, t, hattr, halike, hsize⟩ := s.extentAttr_eq inum m
  rw [h] at hattr
  by_cases hfile : isfile inum = true
  · have hbytes : attr.size.toNat = content.length := by
      rw [hsize content h]
      exact UInt32.toNat_ofNat_of_lt (hlength hfile)
    have hget : s.getattr inum m = (.ok, ⟨inum, regularMode, 1, attr.atime.toNat,
        attr.mtime.toNat, attr.ctime.toNat, attr.size.toNat⟩, t) := by
      simp only [YfsClient.getattr, if_pos hfile, YfsClient.getfile, hattr, found]
    refine ⟨_, t, hget, ?_, halike⟩
    rw [statOf, if_pos hfile, Stat.timeless, hbytes]
  · have hget : s.getattr inum m = (.ok, ⟨inum, directoryMode, 2, attr.atime.toNat,
        attr.mtime.toNat, attr.ctime.toNat, 0⟩, t) := by
      simp only [YfsClient.getattr, if_neg hfile, YfsClient.getdir, hattr, found]
    refine ⟨_, t, hget, ?_, halike⟩
    rw [statOf, if_neg hfile, Stat.timeless]

theorem YfsClient.getattr_missing (h : s.content inum = none) :
    ∃ t, s.getattr inum m = (.ioerr, .blank inum, t) ∧ s.Alike t := by
  obtain ⟨attr, t, hattr, halike, -⟩ := s.extentAttr_eq inum m
  rw [h] at hattr
  refine ⟨t, ?_, halike⟩
  by_cases hfile : isfile inum = true
  · simp only [YfsClient.getattr, if_pos hfile, YfsClient.getfile, hattr, found]
  · simp only [YfsClient.getattr, if_neg hfile, YfsClient.getdir, hattr, found]

end Contents

section Operations

variable {s : YfsClient} {inum : Nat} {m : Moments} {content name : Buf}

theorem YfsClient.modify_ok (h : s.content inum = some content) (change : Buf → Buf)
    (m : Moments) : ∃ t, s.modify inum change m = (.ok, t) ∧
      t.content = Function.update s.content inum (some (change content)) ∧
      t.server.contents = s.server.contents := by
  obtain ⟨between, hget, halike⟩ := get_ok (m := m 0) h
  refine ⟨(between.put inum (m 1) (change content)).2, ?_, ?_, halike.server⟩
  · simp only [YfsClient.modify, hget]
    rfl
  · rw [content_put, halike.content]

theorem YfsClient.modify_missing (h : s.content inum = none) (change : Buf → Buf) (m : Moments) :
    ∃ t, s.modify inum change m = (.noent, t) ∧ s.Alike t := by
  obtain ⟨t, hget, halike⟩ := get_missing (m := m 0) h
  exact ⟨t, by simp only [YfsClient.modify, hget], halike⟩

theorem YfsClient.read_ok {off : Nat} (h : s.content inum = some content) (size : Nat)
    (hoff : off < 2 ^ 63) (m : Moments) :
    ∃ t, s.read inum size off m = (.ok, (content.drop off).take size, t) ∧ s.Alike t := by
  obtain ⟨t, hread, hcontent⟩ := read_some h size hoff m
  refine ⟨t, hread, hcontent, ?_⟩
  obtain ⟨between, hget, halike⟩ := get_ok (m := m 0) h
  simp only [YfsClient.read, hget] at hread
  have hstate : between = t := congrArg (fun out => out.2.2) hread
  exact hstate ▸ halike.server

theorem YfsClient.read_missing (h : s.content inum = none) (size : Nat) (off : Int) (m : Moments) :
    ∃ t, s.read inum size off m = (.noent, [], t) ∧ s.Alike t := by
  obtain ⟨t, hget, halike⟩ := get_missing (m := m 0) h
  exact ⟨t, by simp only [YfsClient.read, hget], halike⟩

theorem YfsClient.lookupfile_ok (h : s.content inum = some content) (name : Buf) (m : Moments) :
    ∃ t, s.lookupfile inum name m =
      ((Yfs.lookupfile content name).1, (Yfs.lookupfile content name).2, t) ∧ s.Alike t := by
  obtain ⟨t, hget, halike⟩ := get_ok (m := m 0) h
  exact ⟨t, by simp only [YfsClient.lookupfile, hget], halike⟩

theorem YfsClient.lookupfile_missing (h : s.content inum = none) (name : Buf) (m : Moments) :
    ∃ t, s.lookupfile inum name m = (.noent, none, t) ∧ s.Alike t := by
  obtain ⟨t, hget, halike⟩ := get_missing (m := m 0) h
  exact ⟨t, by simp only [YfsClient.lookupfile, hget], halike⟩

/-- `createfile` does not reach the server. -/
theorem YfsClient.server_createfile {f : Bool} {random : Fin (2 ^ 31)} {ret : XxStatus}
    {new : UInt64} {t : YfsClient} (h : s.createfile inum f name random m = some (ret, new, t)) :
    t.server.contents = s.server.contents := by
  have halike := alike_get s inum (m 0)
  unfold YfsClient.createfile at h
  dsimp only at h
  split at h
  · cases h
  · split at h
    · next between hget =>
        rw [hget] at halike
        split at h
        · cases h
          exact halike.server
        · cases h
          exact halike.server
    · next hget =>
        rw [hget] at halike
        cases h
        exact halike.server

theorem YfsClient.createfile_missing {f : Bool} {random : Fin (2 ^ 31)}
    (h : s.content inum = none) (hinum : (drawn f random).toNat ≠ inum) (name : Buf) (m : Moments) :
    ∃ t, s.createfile inum f name random m = some (.noent, drawn f random, t) ∧ s.Alike t := by
  obtain ⟨t, hget, halike⟩ := get_missing (m := m 0) h
  exact ⟨t, by simp only [YfsClient.createfile, if_neg hinum, hget], halike⟩

theorem YfsClient.readdir_ok (h : s.content inum = some content) (hdir : isdir inum = true)
    (m : Moments) : ∃ t, s.readdir inum m =
      (.ok ((files content).map fun file => (cstr (parse file).2, (parse file).1)), t) ∧
        s.Alike t := by
  obtain ⟨t, hget, halike⟩ := get_ok (m := m 0) h
  exact ⟨t, by simp only [YfsClient.readdir, if_pos hdir, hget], halike⟩

theorem YfsClient.readdir_missing (h : s.content inum = none) (hdir : isdir inum = true)
    (m : Moments) : ∃ t, s.readdir inum m = (.error .enoent, t) ∧ s.Alike t := by
  obtain ⟨t, hget, halike⟩ := get_missing (m := m 0) h
  exact ⟨t, by simp only [YfsClient.readdir, if_pos hdir, hget], halike⟩

theorem YfsClient.unlink_missing (h : s.content inum = none) (name : Buf) (m : Moments) :
    ∃ t, s.unlink inum name m = (.noent, t) ∧ s.Alike t := by
  obtain ⟨t, hget, halike⟩ := get_missing (m := m 0) h
  by_cases hdir : isdir inum = true
  · exact ⟨t, by simp only [YfsClient.unlink, if_pos hdir, hget], halike⟩
  · exact ⟨s, by simp only [YfsClient.unlink, if_neg hdir], rfl, rfl⟩

theorem YfsClient.unlink_absent (h : s.content inum = some content)
    (habsent : (unlinkLoop name (files content) [] 0 none).2 = none) (m : Moments) :
    ∃ t, s.unlink inum name m = (.noent, t) ∧ s.Alike t := by
  obtain ⟨t, hget, halike⟩ := get_ok (m := m 0) h
  by_cases hdir : isdir inum = true
  · refine ⟨t, ?_, halike⟩
    rcases hloop : unlinkLoop name (files content) [] 0 none with ⟨ost, last⟩
    rw [hloop] at habsent
    obtain rfl : last = none := habsent
    simp only [YfsClient.unlink, if_pos hdir, hget, hloop]
  · exact ⟨s, by simp only [YfsClient.unlink, if_neg hdir], rfl, rfl⟩

/-- The extent is back as the server has it. -/
theorem YfsClient.unlink_ok {ost : Buf} {child : Nat} (h : s.content inum = some content)
    (hdir : isdir inum = true)
    (hloop : unlinkLoop name (files content) [] 0 none = (ost, some child)) (m : Moments) :
    ∃ t, s.unlink inum name m = (.ok, t) ∧
      t.content = Function.update (Function.update s.content child (s.server.contents child)) inum
        (some ost) ∧ t.server.contents = s.server.contents := by
  obtain ⟨between, hget, halike⟩ := get_ok (m := m 0) h
  refine ⟨((between.remove child).2.put inum (m 1) ost).2, ?_, ?_, halike.server⟩
  · simp only [YfsClient.unlink, if_pos hdir, hget, hloop]
    rfl
  · rw [content_put, content_remove, halike.content, halike.server]

end Operations

end DistributedLab.Yfs
