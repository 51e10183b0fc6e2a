import DistributedLab.ExtentTransparency

/-!
# A file system over extents

A `yfs_client` keeps a file or a directory in the extent with its number.  Each of its operations
reads an extent with `get`, computes on the string, and writes it back with `put`.  Here are the
three calls on which the operations rest, and what they do to the content of the extents.

The content of an extent is what `get` returns.  It is that of the cache, or that of the server
if the cache has none; in particular `remove` brings the server's content back, as it does not
reach the server.
-/

namespace DistributedLab.Yfs

open Extent

inductive XxStatus where
  | ok
  | rpcerr
  | noent
  | ioerr
  | exist
deriving DecidableEq, Repr

/-- The number of a file has this bit set. -/
def isfile (inum : Nat) : Bool := inum &&& 0x80000000 != 0

def isdir (inum : Nat) : Bool := !isfile inum

/-! ### The content of the extents -/

/-- What the cache has, and else what the server has. -/
def merged (client : ExtentClient) (server : ExtentServer) (eid : Nat) : Option Buf :=
  (client.contents eid).or (server.contents eid)

theorem entry_merged {attr : Option Attr} {cached kept map : Option Buf}
    (h : Entry attr cached kept map) : Entry attr cached kept (cached.or kept) := by
  cases h with
  | missing => exact .missing
  | unloaded buf => exact .unloaded buf
  | removed buf => exact .unloaded buf
  | known hsize => exact .known hsize
  | cached hsize kept => exact .cached hsize kept

theorem sound_merged {s : Mirror} (h : s.Sound) :
    Mirror.Sound ⟨s.client, s.server, merged s.client s.server⟩ :=
  ⟨h.server, fun eid => entry_merged (h.entry eid)⟩

theorem entry_eq_or {attr : Option Attr} {cached kept map : Option Buf}
    (h : Entry attr cached kept map) (hkept : kept.isSome = true → map.isSome = true) :
    cached.or kept = map := by
  cases h with
  | missing => rfl
  | unloaded buf => rfl
  | removed buf => exact absurd (hkept rfl) (by decide)
  | known hsize => rfl
  | cached hsize kept => rfl

theorem contents_exchange (now later : UInt32) (junk : Attr) (e : ExtentClient) (s : ExtentServer)
    (access : Access) : (exchange now later junk e s access).2.1.contents = s.contents := by
  have hanswer : ∀ {server answered}, s.answer later junk access = some (server, answered) →
      server.contents = s.contents := by
    intro server answered h
    cases access with
    | fetching eid op =>
        cases h
        rfl
    | reading eid =>
        cases h
        exact contents_get s eid later
    | _ => cases h
  unfold exchange
  split
  · rfl
  · next h =>
      split
      · exact hanswer h
      · exact hanswer h

/-! ### The client -/

/-- A client with its cache and the server, where the attributes of an extent fit its content. -/
structure YfsClient where
  client : ExtentClient
  server : ExtentServer
  sound : Mirror.Sound ⟨client, server, merged client server⟩

/-- The times that a call to the extent client reads from the clocks, and the attributes that it
    finds in uninitialised memory. -/
structure Moment where
  now : UInt32
  later : UInt32
  junk : Attr

/-- The moments of the calls of an operation, one after the other. -/
abbrev Moments := Nat → Moment

namespace YfsClient

def content (s : YfsClient) (inum : Nat) : Option Buf := merged s.client s.server inum

/-- The file system with its root directory, as the first client finds it. -/
def start : YfsClient where
  client := ExtentClient.new
  server := ExtentServer.new
  sound := ⟨consistent_new, fun _ => entry_unloaded _⟩

section Calls

variable (s : YfsClient) (inum : Nat) (m : Moment)

theorem fits_get :
    Mirror.fits ⟨s.client, s.server, s.content⟩ (.get inum m.now m.later m.junk) = true := by
  simp only [Mirror.fits, content, merged, Option.isSome_or]
  cases s.server.contents inum with
  | none => exact Bool.or_true _
  | some buf => simp

theorem sound_get : Mirror.Sound ⟨(s.client.getAll s.server inum m.now m.later m.junk).1,
    (s.client.getAll s.server inum m.now m.later m.junk).2.1, s.content⟩ :=
  (s.sound.get m.now m.later m.junk).2 _ (fits_get s inum m) rfl

def get : XxStatus × Buf × YfsClient :=
  let out := s.client.getAll s.server inum m.now m.later m.junk
  let state : YfsClient := ⟨out.1, out.2.1, sound_merged (sound_get s inum m)⟩
  match out.2.2 with
  | .got _ .ok buf => (.ok, buf, state)
  | .got _ .ioerr buf => (.noent, buf, state)
  | _ => (.noent, [], state)

def put (buf : Buf) : XxStatus × YfsClient :=
  (.ok, ⟨s.client.put inum buf m.now m.later, s.server,
    sound_merged (s.sound.put buf m.now m.later)⟩)

def remove : XxStatus × YfsClient :=
  (.ok, ⟨s.client.remove inum, s.server, sound_merged s.sound.remove⟩)

end Calls

section Contents

variable {s : YfsClient} {inum : Nat} {m : Moment} {buf : Buf}

theorem got_eq (s : YfsClient) (inum : Nat) (m : Moment) :
    (s.client.getAll s.server inum m.now m.later m.junk).2.2 =
      .got inum (found (s.content inum)).1 (found (s.content inum)).2 :=
  (s.sound.get m.now m.later m.junk).1.mpr (fits_get s inum m)

theorem get_some (h : s.content inum = some buf) :
    ∃ t, s.get inum m = (.ok, buf, t) ∧ t.content = s.content := by
  have hgot := got_eq s inum m
  refine ⟨⟨_, _, sound_merged (sound_get s inum m)⟩, ?_, ?_⟩
  · rw [h] at hgot
    simp only [get, hgot, found]
  · funext eid
    apply entry_eq_or ((sound_get s inum m).entry eid)
    intro hkept
    have hserver : (s.server.contents eid).isSome = true := by
      have hsame : (s.client.getAll s.server inum m.now m.later m.junk).2.1.contents =
          s.server.contents := (contents_exchange _ _ _ _ _ _).trans (contents_exchange _ _ _ _ _ _)
      rwa [← hsame]
    simp [content, merged, hserver]

theorem get_none (h : s.content inum = none) : ∃ t, s.get inum m = (.noent, [], t) := by
  have hgot := got_eq s inum m
  rw [h] at hgot
  exact ⟨⟨_, _, sound_merged (sound_get s inum m)⟩, by simp only [get, hgot, found]⟩

theorem content_put : (s.put inum m buf).2.content = Function.update s.content inum (some buf) := by
  funext eid
  by_cases heid : eid = inum
  · subst heid
    simp [put, content, merged, ExtentClient.put, ExtentClient.setContent]
  · simp [put, content, merged, ExtentClient.put, ExtentClient.setContent, ExtentClient.setAttr,
      heid]

/-- What the server has comes back. -/
theorem content_remove :
    (s.remove inum).2.content = Function.update s.content inum (s.server.contents inum) := by
  funext eid
  by_cases heid : eid = inum
  · subst heid
    simp [remove, content, merged, ExtentClient.remove, ExtentClient.erase]
  · simp [remove, content, merged, ExtentClient.remove, ExtentClient.erase, heid]

end Contents

end YfsClient

end DistributedLab.Yfs
