import DistributedLab.Fuse
import DistributedLab.NameTree

/-!
# A mount is a tree of files

What the requests of the kernel are for: files, which are sparse arrays of bytes, and directories,
which are maps from names to numbers, in a tree with the root directory at its top.  `FileTree`
answers the requests as such a tree should, and a mounted `yfs_client` answers them in the same
way, as long as they fit: new numbers are not in use, names are words, and a file is neither made
longer by `setattr` nor written after it is gone.
-/

namespace DistributedLab.Yfs

open Extent NameTree Transition

/-! ## 1. The tree -/

inductive Inode where
  | file (bytes : SparseArray (0 : UInt8))
  | dir (entries : Directory)

def Inode.isfile : Inode → Bool
  | .file _ => true
  | .dir _ => false

/-- The attributes without the times. -/
def Inode.stat (ino : Nat) : Inode → Stat
  | .file bytes => ⟨ino, regularMode, 1, 0, 0, 0, bytes.length⟩
  | .dir _ => ⟨ino, directoryMode, 2, 0, 0, 0, 0⟩

def Inode.empty (f : Bool) : Inode := if f then .file (.ofList 0 []) else .dir ∅

/-- The entries of a directory in the order of insertion. -/
def listing (d : Directory) : List (Buf × Nat) :=
  d.entries.reverse.map fun e => (e.1.bytes, e.2.toNat)

/-- The number that a directory has under a name. -/
def childOf (inode : Nat → Option Inode) (ino : Nat) (name : Name) : Option Nat :=
  match inode ino with
  | some (.dir d) => (d.lookup name).map UInt64.toNat
  | _ => none

/-- The bit of a number tells files from directories. -/
def Kinds (inode : Nat → Option Inode) : Prop :=
  ∀ ino node, inode ino = some node → node.isfile = isfile ino

/-- A tree of files and directories. -/
structure FileTree where
  inode : Nat → Option Inode
  kinds : Kinds inode
  tree : IsTree 1 (fun ino => inode ino ≠ none) (childOf inode)

section Tree

variable {inode : Nat → Option Inode} {ino other : Nat} {name : Name} {d : Directory}

theorem childOf_dir (h : inode ino = some (.dir d)) (name : Name) :
    childOf inode ino name = (d.lookup name).map UInt64.toNat := by
  simp only [childOf, h]

theorem childOf_file {bytes : SparseArray (0 : UInt8)} (h : inode ino = some (.file bytes))
    (name : Name) : childOf inode ino name = none := by
  simp only [childOf, h]

theorem childOf_missing (h : inode ino = none) (name : Name) : childOf inode ino name = none := by
  simp only [childOf, h]

theorem childOf_empty {f : Bool} (h : inode ino = some (.empty f)) (name : Name) :
    childOf inode ino name = none := by
  cases f with
  | true => exact childOf_file h name
  | false =>
      rw [childOf_dir h, AList.lookup_empty]
      rfl

theorem childOf_congr {inode' : Nat → Option Inode} (h : inode' ino = inode ino) (name : Name) :
    childOf inode' ino name = childOf inode ino name := by
  simp only [childOf, h]

theorem Kinds.update (h : Kinds inode) {entry : Option Inode}
    (hentry : ∀ node, entry = some node → node.isfile = isfile ino) :
    Kinds (Function.update inode ino entry) := by
  intro other node hnode
  by_cases hother : other = ino
  · subst hother
    rw [Function.update_self] at hnode
    exact hentry node hnode
  · rw [Function.update_of_ne hother] at hnode
    exact h other node hnode

/-- A node is replaced by one of the same kind. -/
theorem Kinds.replace (h : Kinds inode) {old node : Inode} (hold : inode ino = some old)
    (hkind : node.isfile = old.isfile) : Kinds (Function.update inode ino (some node)) := by
  refine h.update fun other hother => ?_
  cases hother
  exact hkind.trans (h ino old hold)

end Tree

namespace FileTree

/-- The root directory, and nothing in it. -/
def new : FileTree where
  inode := Function.update (fun _ => none) 1 (some (.dir ∅))
  kinds := by
    refine Kinds.update (fun _ _ h => by cases h) fun node h => ?_
    cases h
    rfl
  tree := by
    have hchild : ∀ ino name, childOf (Function.update (fun _ => none) 1 (some (.dir ∅))) ino name =
        none := by
      intro ino name
      by_cases hino : ino = 1
      · subst hino
        exact childOf_empty (f := false) (Function.update_self ..) name
      · exact childOf_missing (Function.update_of_ne hino ..) name
    refine ⟨?_, ?_, ?_, ?_, ?_⟩
    · rw [Function.update_self]
      exact Option.some_ne_none _
    · intro p name c hc
      rw [hchild] at hc
      cases hc
    · intro p name c p' name' hc
      rw [hchild] at hc
      cases hc
    · intro p name
      rw [hchild]
      exact (Option.some_ne_none _).symm
    · intro n hn
      by_cases hroot : n = 1
      · exact ⟨[], by rw [hroot]; rfl⟩
      · rw [Function.update_of_ne hroot] at hn
        exact absurd rfl hn

variable (t : FileTree)

/-- A file gets other bytes. -/
def setFile (ino : Nat) (bytes : SparseArray (0 : UInt8))
    (h : ∃ old, t.inode ino = some (.file old)) : FileTree where
  inode := Function.update t.inode ino (some (.file bytes))
  kinds := by
    obtain ⟨old, hold⟩ := h
    exact t.kinds.replace hold rfl
  tree := by
    obtain ⟨old, hold⟩ := h
    have hnode : (fun other => Function.update t.inode ino (some (.file bytes)) other ≠ none) =
        fun other => t.inode other ≠ none := by
      funext other
      by_cases hother : other = ino
      · subst hother
        simp [hold]
      · rw [Function.update_of_ne hother]
    have hchild : childOf (Function.update t.inode ino (some (.file bytes))) = childOf t.inode := by
      funext other name
      by_cases hother : other = ino
      · subst hother
        rw [childOf_file (Function.update_self ..), childOf_file hold]
      · exact childOf_congr (Function.update_of_ne hother ..) name
    rw [hnode, hchild]
    exact t.tree

/-- An empty file or directory with the number `n` under a new name. -/
def insert (parent : Nat) (d : Directory) (name : Name) (f : Bool) (n : UInt64)
    (hparent : t.inode parent = some (.dir d)) (hname : name ∉ d) (hn : t.inode n.toNat = none)
    (hkind : isfile n.toNat = f) : FileTree where
  inode := Function.update (Function.update t.inode parent (some (.dir (d.insert name n)))) n.toNat
    (some (.empty f))
  kinds := by
    have hdir : Kinds (Function.update t.inode parent (some (.dir (d.insert name n)))) :=
      t.kinds.replace hparent rfl
    refine hdir.update fun node hnode => ?_
    cases hnode
    rw [hkind]
    cases f <;> rfl
  tree := by
    have hne : parent ≠ n.toNat := by
      intro heq
      rw [heq, hn] at hparent
      cases hparent
    have hdir : Function.update (Function.update t.inode parent (some (.dir (d.insert name n))))
        n.toNat (some (.empty f)) parent = some (.dir (d.insert name n)) := by
      rw [Function.update_of_ne hne, Function.update_self]
    have hnode : t.inode parent ≠ none := by
      rw [hparent]
      exact Option.some_ne_none _
    have hfree : childOf t.inode parent name = none := by
      rw [childOf_dir hparent, AList.lookup_eq_none.mpr hname]
      rfl
    have hunused : ¬ (t.inode n.toNat ≠ none) := fun h => h hn
    refine t.tree.graft hnode hfree hunused ?_ ?_ ?_
    · intro ino
      by_cases hino : ino = n.toNat
      · simp [hino]
      · by_cases hparent' : ino = parent
        · simp [hparent', hne, hparent]
        · simp [hino, hparent']
    · rw [childOf_dir hdir, AList.lookup_insert]
      rfl
    · intro q l hother
      by_cases hq : q = n.toNat
      · subst hq
        rw [childOf_empty (Function.update_self ..), childOf_missing hn]
      · by_cases hparent' : q = parent
        · subst hparent'
          have hl : l ≠ name := fun heq => hother ⟨rfl, heq⟩
          rw [childOf_dir hdir, childOf_dir hparent, AList.lookup_insert_ne hl]
        · apply childOf_congr
          rw [Function.update_of_ne hq, Function.update_of_ne hparent']

/-- A file is taken away. -/
def remove (parent : Nat) (d : Directory) (name : Name) (n : UInt64)
    (hparent : t.inode parent = some (.dir d)) (hname : d.lookup name = some n)
    (hfile : isfile n.toNat = true) : FileTree where
  inode := Function.update (Function.update t.inode n.toNat none) parent
    (some (.dir (d.erase name)))
  kinds := by
    have hgone : Kinds (Function.update t.inode n.toNat none) :=
      t.kinds.update fun node hnode => by cases hnode
    have hkind : (Inode.dir d).isfile = isfile parent := t.kinds parent _ hparent
    refine hgone.update fun node hnode => ?_
    cases hnode
    exact hkind
  tree := by
    have hne : n.toNat ≠ parent := by
      rintro rfl
      have hkind := t.kinds _ _ hparent
      rw [hfile] at hkind
      cases hkind
    have hbelow : ∀ l, childOf t.inode n.toNat l = none := by
      intro l
      rcases hnode : t.inode n.toNat with _ | (bytes | entries)
      · exact childOf_missing hnode l
      · exact childOf_file hnode l
      · have hkind := t.kinds _ _ hnode
        rw [hfile] at hkind
        cases hkind
    have hdir : Function.update (Function.update t.inode n.toNat none) parent
        (some (.dir (d.erase name))) parent = some (.dir (d.erase name)) :=
      Function.update_self ..
    have hleaf : childOf t.inode parent name = some n.toNat := by
      rw [childOf_dir hparent, hname]
      rfl
    refine t.tree.prune hleaf hbelow ?_ ?_ ?_
    · intro ino
      by_cases hino : ino = parent
      · subst hino
        simp [hparent, hne.symm]
      · by_cases hgone : ino = n.toNat
        · simp [hgone, hne]
        · simp [hino, hgone]
    · rw [childOf_dir hdir, AList.lookup_erase]
      rfl
    · intro q l hother
      by_cases hq : q = parent
      · subst hq
        have hl : l ≠ name := fun heq => hother ⟨rfl, heq⟩
        rw [childOf_dir hdir, childOf_dir hparent, AList.lookup_erase_ne hl]
      · by_cases hgone : q = n.toNat
        · subst hgone
          rw [hbelow l, childOf_missing]
          rw [Function.update_of_ne hne, Function.update_self]
        · apply childOf_congr
          rw [Function.update_of_ne hq, Function.update_of_ne hgone]

end FileTree

/-! ## 2. Requests and answers -/

/-- The requests of the kernel; the value of `random()` goes with those that create something. -/
inductive FuseCall where
  | getattr (ino : Nat)
  | setattr (ino : Nat) (toSet : Bool) (size : Nat)
  | read (ino size off : Nat)
  | write (ino off : Nat) (buf : Buf)
  | create (parent : Nat) (name : Name) (random : Fin (2 ^ 31))
  | mknod (parent : Nat) (name : Name) (random : Fin (2 ^ 31))
  | mkdir (parent : Nat) (name : Name) (random : Fin (2 ^ 31))
  | lookup (parent : Nat) (name : Name)
  | readdir (ino size off : Nat)
  | unlink (parent : Nat) (name : Name)

namespace FileTree

def create (t : FileTree) (ok : EntryParam → Reply) (f : Bool) (parent : Nat) (name : Name)
    (n : UInt64) : Reply × FileTree :=
  match hparent : t.inode parent with
  | some (.dir d) =>
      if hname : name ∈ d then (.err .eexist, t)
      else if hn : t.inode n.toNat = none ∧ isfile n.toNat = f then
        (ok (.of n.toNat ((Inode.empty f).stat n.toNat)),
          t.insert parent d name f n hparent hname hn.1 hn.2)
      else (.err .enosys, t)
  | some (.file _) => (.err .enotdir, t)
  | none => (.err .enoent, t)

def lookup (t : FileTree) (parent : Nat) (name : Name) : Reply :=
  match t.inode parent with
  | some (.file _) => .err .enotdir
  | _ =>
      match childOf t.inode parent name with
      | none => .err .enoent
      | some n =>
          match t.inode n with
          | none => .err .enoent
          | some node => .entry (.of n (node.stat n))

def unlink (t : FileTree) (parent : Nat) (name : Name) : Reply × FileTree :=
  match hparent : t.inode parent with
  | some (.dir d) =>
      match hname : d.lookup name with
      | some n =>
          if hfile : isfile n.toNat = true then
            (.err .success, t.remove parent d name n hparent hname hfile)
          else (.err .enoent, t)
      | none => (.err .enoent, t)
  | _ => (.err .enoent, t)

/-- What the tree answers. -/
def answer (fmt : DirentFormat) (t : FileTree) : FuseCall → Reply × FileTree
  | .getattr ino =>
      match t.inode ino with
      | some node => (.attr (node.stat ino), t)
      | none => (.err .enoent, t)
  | .setattr ino toSet size =>
      if toSet then
        match h : t.inode ino with
        | some (.file bytes) =>
            (.attr ((Inode.file (bytes.setLength size)).stat ino),
              t.setFile ino (bytes.setLength size) ⟨bytes, h⟩)
        | some (.dir _) => (.err .enosys, t)
        | none => (.err .enoent, t)
      else (.err .enosys, t)
  | .read ino size off =>
      match t.inode ino with
      | some (.file bytes) => (.buf (bytes.read size off), t)
      | some (.dir _) => (.err .enosys, t)
      | none => (.err .enoent, t)
  | .write ino off buf =>
      match h : t.inode ino with
      | some (.file bytes) => (.write buf.length, t.setFile ino (bytes.write off buf) ⟨bytes, h⟩)
      | some (.dir _) => (.err .enosys, t)
      | none => (.err .enoent, t)
  | .create parent name random => t.create .create true parent name (drawn true random)
  | .mknod parent name random => t.create .entry true parent name (drawn true random)
  | .mkdir parent name random => t.create .entry false parent name (drawn false random)
  | .lookup parent name => (t.lookup parent name, t)
  | .readdir ino size off =>
      match t.inode ino with
      | some (.dir d) => (.buf (replyBufLimited (dirbuf fmt (listing d)) off size), t)
      | some (.file _) => (.err .enotdir, t)
      | none => (.err (if isdir ino then .enoent else .enotdir), t)
  | .unlink parent name => t.unlink parent name

def isFile (t : FileTree) (ino : Nat) : Bool := ((t.inode ino).map Inode.isfile) == some true

def isDir (t : FileTree) (ino : Nat) : Bool := ((t.inode ino).map Inode.isfile) == some false

/-- The number that is drawn is not in use, nor is it that of a directory which is not there. -/
def unused (t : FileTree) (parent : Nat) (n : UInt64) : Bool :=
  (t.inode n.toNat).isNone && n.toNat != parent

/-- The requests that the handlers answer as they should. -/
def fits (t : FileTree) : FuseCall → Bool
  | .getattr _ => true
  | .setattr ino toSet size =>
      !toSet || match t.inode ino with
        | some (.file bytes) => decide (size ≤ bytes.length)
        | some (.dir _) => false
        | none => true
  | .read ino _ off => decide (off < 2 ^ 63) && !t.isDir ino
  | .write ino off buf => decide (off + buf.length < 2 ^ 31) && t.isFile ino
  | .create parent _ random => t.unused parent (drawn true random) && !t.isFile parent
  | .mknod parent _ random => t.unused parent (drawn true random) && !t.isFile parent
  | .mkdir parent _ random => t.unused parent (drawn false random) && !t.isFile parent
  | .lookup parent _ => !t.isFile parent
  | .readdir _ _ _ => true
  | .unlink _ _ => true

/-- The tree as a machine that takes the requests which fit. -/
def step (fmt : DirentFormat) (t : FileTree) (call : FuseCall) : Option (Reply × FileTree) :=
  if t.fits call then some (t.answer fmt call) else none

end FileTree

/-! ## 3. The mount -/

/-- What a handler meets: the times, and what is in an entry that is not filled in. -/
structure Circumstances where
  moments : Moments
  junk : EntryParam

def EntryParam.timeless (e : EntryParam) : EntryParam := { e with attr := e.attr.timeless }

def Reply.timeless : Reply → Reply
  | .attr st => .attr st.timeless
  | .entry e => .entry e.timeless
  | .create e => .create e.timeless
  | reply => reply

def FuseCall.handle (fmt : DirentFormat) (s : YfsClient) (call : FuseCall) (c : Circumstances) :
    Option (Reply × YfsClient) :=
  match call with
  | .getattr ino => some (fuseserverGetattr s ino c.moments)
  | .setattr ino toSet size => some (fuseserverSetattr s ino toSet size c.moments)
  | .read ino size off => some (fuseserverRead s ino size off c.moments)
  | .write ino off buf => some (fuseserverWrite s ino buf off c.moments)
  | .create parent name random => fuseserverCreate s parent name.bytes random c.moments
  | .mknod parent name random => fuseserverMknod s parent name.bytes random c.moments
  | .mkdir parent name random => fuseserverMkdir s parent name.bytes random c.moments
  | .lookup parent name => some (fuseserverLookup s parent name.bytes c.junk c.moments)
  | .readdir ino size off => some (fuseserverReaddir s fmt ino size off c.moments)
  | .unlink parent name => some (fuseserverUnlink s parent name.bytes c.moments)

/-- The handlers, and their replies without the times. -/
def FuseCall.onMount (fmt : DirentFormat) (s : YfsClient) (call : FuseCall × Circumstances) :
    Option (Reply × YfsClient) :=
  (call.1.handle fmt s call.2).map fun out => (out.1.timeless, out.2)

/-- The content of an extent and the node that it stands for. -/
inductive Shows : Option Buf → Option Inode → Prop
  | missing : Shows none none
  | file (content : Buf) (hlength : content.length < 2 ^ 31) :
      Shows (some content) (some (.file (.ofList 0 content)))
  | dir {content : Buf} {d : Directory} (h : Represents content d) :
      Shows (some content) (some (.dir d))

/-- Nothing has been flushed to the server, which has the root directory from the start. -/
structure YfsClient.Mounts (s : YfsClient) (t : FileTree) : Prop where
  shows : ∀ ino, Shows (s.content ino) (t.inode ino)
  unflushed : ∀ ino, ino ≠ 1 → s.server.contents ino = none

section Shows

variable {content : Option Buf} {ino : Nat}

theorem Shows.of_missing (h : Shows content none) : content = none := by
  cases h
  rfl

theorem Shows.of_file {bytes : SparseArray (0 : UInt8)} (h : Shows content (some (.file bytes))) :
    ∃ buf, content = some buf ∧ bytes = .ofList 0 buf ∧ buf.length < 2 ^ 31 := by
  cases h with
  | file buf hlength => exact ⟨buf, rfl, rfl, hlength⟩

theorem Shows.of_dir {d : Directory} (h : Shows content (some (.dir d))) :
    ∃ buf, content = some buf ∧ Represents buf d := by
  cases h with
  | dir hbuf => exact ⟨_, rfl, hbuf⟩

theorem Shows.of_some {node : Inode} (h : Shows content (some node))
    (hkind : node.isfile = isfile ino) :
    ∃ buf, content = some buf ∧ statOf ino buf = node.stat ino ∧
      (isfile ino = true → buf.length < 2 ^ 32) := by
  cases h with
  | file buf hlength =>
      refine ⟨buf, rfl, ?_, fun _ => Nat.lt_trans hlength (by decide)⟩
      have hfile : isfile ino = true := hkind.symm
      rw [statOf, if_pos hfile]
      rfl
  | dir hbuf =>
      have hdir : ¬ isfile ino = true := fun hfile => by
        rw [hfile] at hkind
        cases hkind
      refine ⟨_, rfl, ?_, fun hfile => absurd hfile hdir⟩
      rw [statOf, if_neg hdir]
      rfl

theorem shows_update {contents : Nat → Option Buf} {inode : Nat → Option Inode}
    (h : ∀ ino, Shows (contents ino) (inode ino)) {entry : Option Inode}
    (hentry : Shows content entry) (other : Nat) :
    Shows (Function.update contents ino content other) (Function.update inode ino entry other) := by
  by_cases hother : other = ino
  · subst hother
    rw [Function.update_self, Function.update_self]
    exact hentry
  · rw [Function.update_of_ne hother, Function.update_of_ne hother]
    exact h other

end Shows

theorem isfile_drawn (f : Bool) (random : Fin (2 ^ 31)) : isfile (drawn f random).toNat = f := by
  have hr : (UInt64.ofNat random).toNat = random :=
    UInt64.toNat_ofNat_of_lt (Nat.lt_trans random.isLt (by decide))
  cases f with
  | true =>
      have hbit : (random.val ||| 0x80000000) &&& 0x80000000 = 0x80000000 := by
        rw [Nat.and_or_distrib_right, Nat.and_self]
        apply Nat.eq_of_testBit_eq
        intro i
        simp
      rw [isfile, drawn, if_pos rfl, UInt64.toNat_or, hr]
      show (random.val ||| 0x80000000) &&& 0x80000000 != 0
      rw [hbit]
      rfl
  | false =>
      have hbit : (random.val &&& 0x7FFFFFFF) &&& 0x80000000 = 0 := by
        rw [Nat.and_assoc]
        exact Nat.and_zero _
      rw [isfile, drawn, if_neg Bool.false_ne_true, UInt64.toNat_and, hr]
      show ((random.val &&& 0x7FFFFFFF) &&& 0x80000000 != 0) = false
      rw [hbit]
      rfl

/-! ## 4. The handlers answer like the tree -/

section Handlers

variable {fmt : DirentFormat} {s : YfsClient} {t t' : FileTree} {ino parent size off : Nat}
  {name : Name} {reply : Reply} {c : Circumstances}

theorem YfsClient.Mounts.alike (h : s.Mounts t) {s' : YfsClient} (halike : s.Alike s') :
    s'.Mounts t := by
  refine ⟨fun ino => ?_, fun ino hino => ?_⟩
  · rw [halike.content]
    exact h.shows ino
  · rw [halike.server]
    exact h.unflushed ino hino

/-- `getattr` on what there is. -/
theorem YfsClient.Mounts.getattr_ok (h : s.Mounts t) {node : Inode}
    (hnode : t.inode ino = some node) (m : Moment) :
    ∃ st s', s.getattr ino m = (.ok, st, s') ∧ st.timeless = node.stat ino ∧ s'.Mounts t := by
  have hshows := h.shows ino
  rw [hnode] at hshows
  obtain ⟨buf, hcontent, hstat, hlength⟩ := hshows.of_some (t.kinds ino node hnode)
  obtain ⟨st, s', hget, hst, halike⟩ := YfsClient.getattr_ok (m := m) hcontent hlength
  exact ⟨st, s', hget, hst.trans hstat, h.alike halike⟩

theorem YfsClient.Mounts.missing (h : s.Mounts t) (hnode : t.inode ino = none) :
    s.content ino = none := by
  have hshows := h.shows ino
  rw [hnode] at hshows
  exact hshows.of_missing

theorem YfsClient.Mounts.file (h : s.Mounts t) {bytes : SparseArray (0 : UInt8)}
    (hnode : t.inode ino = some (.file bytes)) :
    ∃ buf, s.content ino = some buf ∧ bytes = .ofList 0 buf ∧ buf.length < 2 ^ 31 := by
  have hshows := h.shows ino
  rw [hnode] at hshows
  exact hshows.of_file

theorem YfsClient.Mounts.dir (h : s.Mounts t) {d : Directory}
    (hnode : t.inode ino = some (.dir d)) :
    ∃ buf, s.content ino = some buf ∧ Represents buf d := by
  have hshows := h.shows ino
  rw [hnode] at hshows
  exact hshows.of_dir

theorem YfsClient.Mounts.getattr (h : s.Mounts t)
    (hanswer : t.answer fmt (.getattr ino) = (reply, t')) :
    ∃ s', FuseCall.onMount fmt s (.getattr ino, c) = some (reply, s') ∧ s'.Mounts t' := by
  simp only [FileTree.answer] at hanswer
  split at hanswer
  · next node hnode =>
      cases hanswer
      obtain ⟨st, s', hget, hst, hmounts⟩ := h.getattr_ok hnode (c.moments 0)
      refine ⟨s', ?_, hmounts⟩
      simp only [FuseCall.onMount, FuseCall.handle, fuseserverGetattr, hget, Option.map_some,
        Reply.timeless, hst]
  · next hnode =>
      cases hanswer
      obtain ⟨s', hget, halike⟩ := YfsClient.getattr_missing (m := c.moments 0) (h.missing hnode)
      refine ⟨s', ?_, h.alike halike⟩
      simp only [FuseCall.onMount, FuseCall.handle, fuseserverGetattr, hget, Option.map_some,
        Reply.timeless]

/-- A file has got other bytes. -/
theorem YfsClient.Mounts.setFile (h : s.Mounts t) {buf : Buf} {bytes : SparseArray (0 : UInt8)}
    (hfile : ∃ old, t.inode ino = some (.file old)) (hbuf : SparseArray.ofList 0 buf = bytes)
    (hlength : buf.length < 2 ^ 31) {s' : YfsClient}
    (hcontent : s'.content = Function.update s.content ino (some buf))
    (hserver : s'.server.contents = s.server.contents) :
    s'.Mounts (t.setFile ino bytes hfile) := by
  refine ⟨fun other => ?_, fun other hother => ?_⟩
  · rw [hcontent]
    refine shows_update h.shows ?_ other
    rw [← hbuf]
    exact .file buf hlength
  · rw [hserver]
    exact h.unflushed other hother

theorem YfsClient.Mounts.setattr {toSet : Bool} (h : s.Mounts t)
    (hfits : t.fits (.setattr ino toSet size) = true)
    (hanswer : t.answer fmt (.setattr ino toSet size) = (reply, t')) :
    ∃ s', FuseCall.onMount fmt s (.setattr ino toSet size, c) = some (reply, s') ∧
      s'.Mounts t' := by
  cases toSet with
  | false =>
      cases hanswer
      exact ⟨s, rfl, h⟩
  | true =>
      simp only [FileTree.answer, if_true] at hanswer
      split at hanswer
      · next bytes hnode =>
          cases hanswer
          obtain ⟨buf, hcontent, rfl, hlength⟩ := h.file hnode
          have hsize : size ≤ buf.length := by
            simpa [FileTree.fits, hnode, SparseArray.ofList] using hfits
          obtain ⟨between, hset, hbetween, hserver⟩ :=
            YfsClient.modify_ok hcontent (resize size) c.moments
          rw [resize_of_le hsize] at hbetween
          have hmounts : between.Mounts (t.setFile ino _ ⟨_, hnode⟩) :=
            h.setFile ⟨_, hnode⟩ (SparseArray.ofList_take hsize)
              (Nat.lt_of_le_of_lt (List.length_take_le' ..) hlength) hbetween hserver
          obtain ⟨st, s', hget, hst, hmounts'⟩ :=
            hmounts.getattr_ok (Function.update_self ..) (c.moments 2)
          refine ⟨s', ?_, hmounts'⟩
          simp only [FuseCall.onMount, FuseCall.handle, fuseserverSetattr, if_true,
            YfsClient.setsize, hset, hget, Option.map_some, Reply.timeless, hst]
      · next hnode => simp [FileTree.fits, hnode] at hfits
      · next hnode =>
          cases hanswer
          obtain ⟨s', hset, halike⟩ :=
            YfsClient.modify_missing (h.missing hnode) (resize size) c.moments
          refine ⟨s', ?_, h.alike halike⟩
          simp only [FuseCall.onMount, FuseCall.handle, fuseserverSetattr, if_true,
            YfsClient.setsize, hset, Option.map_some, Reply.timeless]

theorem YfsClient.Mounts.read (h : s.Mounts t) (hfits : t.fits (.read ino size off) = true)
    (hanswer : t.answer fmt (.read ino size off) = (reply, t')) :
    ∃ s', FuseCall.onMount fmt s (.read ino size off, c) = some (reply, s') ∧ s'.Mounts t' := by
  simp only [FileTree.answer] at hanswer
  split at hanswer
  · next bytes hnode =>
      cases hanswer
      obtain ⟨buf, hcontent, rfl, -⟩ := h.file hnode
      have hoff : off < 2 ^ 63 := of_decide_eq_true (Bool.and_eq_true_iff.mp hfits).1
      obtain ⟨s', hread, halike⟩ := YfsClient.read_ok hcontent size hoff c.moments
      refine ⟨s', ?_, h.alike halike⟩
      simp only [FuseCall.onMount, FuseCall.handle, fuseserverRead, hread, Option.map_some,
        Reply.timeless, SparseArray.read_ofList]
  · next d hnode => simp [FileTree.fits, FileTree.isDir, hnode, Inode.isfile] at hfits
  · next hnode =>
      cases hanswer
      obtain ⟨s', hread, halike⟩ := YfsClient.read_missing (h.missing hnode) size off c.moments
      refine ⟨s', ?_, h.alike halike⟩
      simp only [FuseCall.onMount, FuseCall.handle, fuseserverRead, hread, Option.map_some,
        Reply.timeless]

theorem YfsClient.Mounts.write {buf : Buf} (h : s.Mounts t)
    (hfits : t.fits (.write ino off buf) = true)
    (hanswer : t.answer fmt (.write ino off buf) = (reply, t')) :
    ∃ s', FuseCall.onMount fmt s (.write ino off buf, c) = some (reply, s') ∧ s'.Mounts t' := by
  obtain ⟨hbound, hthere⟩ := Bool.and_eq_true_iff.mp hfits
  have hrange : off + buf.length < 2 ^ 31 := of_decide_eq_true hbound
  simp only [FileTree.answer] at hanswer
  split at hanswer
  · next bytes hnode =>
      cases hanswer
      obtain ⟨content, hcontent, rfl, hlength⟩ := h.file hnode
      obtain ⟨s', hwrite, hs', hserver⟩ :=
        YfsClient.modify_ok hcontent (overwrite off buf) c.moments
      have hbytes : SparseArray.ofList 0 (overwrite off buf content) =
          (SparseArray.ofList 0 content).write off buf := by
        rw [overwrite_eq content hrange, SparseArray.ofList_write]
      have hlength' : (overwrite off buf content).length < 2 ^ 31 := by
        have hsame := congrArg SparseArray.length hbytes
        simp only [SparseArray.ofList, SparseArray.write] at hsame
        omega
      refine ⟨s', ?_, h.setFile ⟨_, hnode⟩ hbytes hlength' hs' hserver⟩
      simp only [FuseCall.onMount, FuseCall.handle, fuseserverWrite, YfsClient.write, hwrite,
        Option.map_some, Reply.timeless]
  · next d hnode => simp [FileTree.isFile, hnode, Inode.isfile] at hthere
  · next hnode => simp [FileTree.isFile, hnode] at hthere

/-- The helpers of `create`, `mknod` and `mkdir`. -/
theorem YfsClient.Mounts.createhelper (h : s.Mounts t) {ok : EntryParam → Reply} {f : Bool}
    {random : Fin (2 ^ 31)} (hok : ∀ e, (ok e).timeless = ok e.timeless)
    (hunused : t.unused parent (drawn f random) = true) (hparent : t.isFile parent = false)
    (hanswer : t.create ok f parent name (drawn f random) = (reply, t')) :
    ∃ s', ((Yfs.createhelper s f parent name.bytes random c.moments).map (replyCreated ok)).map
      (fun out => (out.1.timeless, out.2)) = some (reply, s') ∧ s'.Mounts t' := by
  obtain ⟨hnone, hne⟩ := Bool.and_eq_true_iff.mp hunused
  have hnone : t.inode (drawn f random).toNat = none := Option.isNone_iff_eq_none.mp hnone
  have hne : (drawn f random).toNat ≠ parent := bne_iff_ne.mp hne
  unfold FileTree.create at hanswer
  split at hanswer
  · next d hdir =>
      obtain ⟨dcontent, hcontent, hd⟩ := h.dir hdir
      split at hanswer
      · next hname =>
          cases hanswer
          obtain ⟨inum, hlookup⟩ := Option.isSome_iff_exists.mp (AList.lookup_isSome.mpr hname)
          have hexist : (Yfs.lookupfile dcontent name.bytes).1 ≠ .ok := by
            simp [lookupfile_some hd hlookup]
          obtain ⟨s', hcreate, hs'⟩ := createfile_exist c.moments hne hcontent hexist
          refine ⟨s', ?_, h.alike ⟨hs', YfsClient.server_createfile hcreate⟩⟩
          simp only [Yfs.createhelper, hcreate, Option.map_some, replyCreated, Reply.timeless]
      · next hname =>
          rw [dif_pos ⟨hnone, isfile_drawn f random⟩] at hanswer
          cases hanswer
          have hfree : (Yfs.lookupfile dcontent name.bytes).1 = .ok := by
            rw [lookupfile_none hd (AList.lookup_eq_none.mpr hname)]
          obtain ⟨between, hcreate, hbetween⟩ := createfile_ok c.moments hne hcontent hfree
          have hempty : Shows (some []) (some (Inode.empty f)) := by
            cases f with
            | true => exact .file [] (by decide)
            | false => exact .dir rfl
          have hmounts : between.Mounts (t.insert parent d name f (drawn f random) hdir hname hnone
              (isfile_drawn f random)) := by
            refine ⟨fun ino => ?_, fun ino hino => ?_⟩
            · rw [hbetween]
              exact shows_update (shows_update h.shows (.dir (hd.insert hname _))) hempty ino
            · rw [YfsClient.server_createfile hcreate]
              exact h.unflushed ino hino
          obtain ⟨st, s', hget, hst, hmounts'⟩ :=
            hmounts.getattr_ok (Function.update_self ..) (c.moments 3)
          refine ⟨s', ?_, hmounts'⟩
          simp only [Yfs.createhelper, hcreate, Option.map_some, hget, replyCreated, hok,
            EntryParam.timeless, EntryParam.of, hst]
  · next hfile => simp [FileTree.isFile, hfile, Inode.isfile] at hparent
  · next hmissing =>
      cases hanswer
      obtain ⟨s', hcreate, halike⟩ :=
        YfsClient.createfile_missing (h.missing hmissing) hne name.bytes c.moments
      refine ⟨s', ?_, h.alike halike⟩
      simp only [Yfs.createhelper, hcreate, Option.map_some, replyCreated, Reply.timeless]

/-- The entry that is found is that of something in the tree, so its attributes are there. -/
theorem YfsClient.Mounts.lookup (fmt : DirentFormat) (name : Name) (c : Circumstances)
    (h : s.Mounts t) (hparent : t.isFile parent = false) :
    ∃ s', FuseCall.onMount fmt s (.lookup parent name, c) = some (t.lookup parent name, s') ∧
      s'.Mounts t := by
  rcases hnode : t.inode parent with _ | (bytes | d)
  · obtain ⟨s', hlookup, halike⟩ :=
      YfsClient.lookupfile_missing (h.missing hnode) name.bytes c.moments
    refine ⟨s', ?_, h.alike halike⟩
    simp only [FuseCall.onMount, FuseCall.handle, fuseserverLookup, hlookup, Option.map_some,
      Reply.timeless, FileTree.lookup, hnode, childOf_missing hnode]
  · simp [FileTree.isFile, hnode, Inode.isfile] at hparent
  · obtain ⟨dcontent, hcontent, hd⟩ := h.dir hnode
    obtain ⟨between, hlookup, halike⟩ :=
      YfsClient.lookupfile_ok hcontent name.bytes c.moments
    have hmounts := h.alike halike
    rcases hname : d.lookup name with _ | n
    · refine ⟨between, ?_, hmounts⟩
      rw [lookupfile_none hd hname] at hlookup
      simp only [FuseCall.onMount, FuseCall.handle, fuseserverLookup, hlookup, Option.map_some,
        Reply.timeless, FileTree.lookup, hnode, childOf_dir hnode, hname, Option.map_none]
    · have hchild : childOf t.inode parent name = some n.toNat := by
        rw [childOf_dir hnode, hname]
        rfl
      obtain ⟨node, hfound⟩ := Option.ne_none_iff_exists'.mp (t.tree.edge hchild).2
      obtain ⟨st, s', hget, hst, hmounts'⟩ := hmounts.getattr_ok hfound (c.moments 1)
      refine ⟨s', ?_, hmounts'⟩
      rw [lookupfile_some hd hname] at hlookup
      simp only [FuseCall.onMount, FuseCall.handle, fuseserverLookup, hlookup, hget,
        Option.map_some, Reply.timeless, FileTree.lookup, hnode, hchild, hfound,
        EntryParam.timeless, EntryParam.of, hst]

theorem YfsClient.Mounts.readdir (h : s.Mounts t)
    (hanswer : t.answer fmt (.readdir ino size off) = (reply, t')) :
    ∃ s', FuseCall.onMount fmt s (.readdir ino size off, c) = some (reply, s') ∧
      s'.Mounts t' := by
  have hnotdir : isfile ino = true → FuseCall.onMount fmt s (.readdir ino size off, c) =
      some (.err .enotdir, s) := by
    intro hfile
    have hdir : ¬ isdir ino = true := by simp [isdir, hfile]
    simp only [FuseCall.onMount, FuseCall.handle, fuseserverReaddir, YfsClient.readdir,
      if_neg hdir, Option.map_some, Reply.timeless]
  simp only [FileTree.answer] at hanswer
  split at hanswer
  · next d hnode =>
      cases hanswer
      obtain ⟨dcontent, hcontent, hd⟩ := h.dir hnode
      have hdir : isdir ino = true := by
        simp [isdir, ← t.kinds ino _ hnode, Inode.isfile]
      obtain ⟨s', hread, halike⟩ := YfsClient.readdir_ok hcontent hdir c.moments
      refine ⟨s', ?_, h.alike halike⟩
      simp only [FuseCall.onMount, FuseCall.handle, fuseserverReaddir, hread, Option.map_some,
        Reply.timeless, listing_eq hd, listing]
  · next bytes hnode =>
      cases hanswer
      exact ⟨s, hnotdir (t.kinds ino _ hnode).symm, h⟩
  · next hnode =>
      cases hanswer
      by_cases hdir : isdir ino = true
      · obtain ⟨s', hread, halike⟩ :=
          YfsClient.readdir_missing (h.missing hnode) hdir c.moments
        refine ⟨s', ?_, h.alike halike⟩
        simp only [FuseCall.onMount, FuseCall.handle, fuseserverReaddir, hread, Option.map_some,
          Reply.timeless, if_pos hdir]
      · have hfile : isfile ino = true := by simpa [isdir] using hdir
        refine ⟨s, ?_, h⟩
        rw [hnotdir hfile, if_neg hdir]

theorem YfsClient.Mounts.unlink (h : s.Mounts t)
    (hanswer : t.answer fmt (.unlink parent name) = (reply, t')) :
    ∃ s', FuseCall.onMount fmt s (.unlink parent name, c) = some (reply, s') ∧ s'.Mounts t' := by
  have hstays : ∀ s', s.unlink parent name.bytes c.moments = (.noent, s') → s.Alike s' →
      ∃ s', FuseCall.onMount fmt s (.unlink parent name, c) = some (.err .enoent, s') ∧
        s'.Mounts t := by
    intro s' hunlink halike
    refine ⟨s', ?_, h.alike halike⟩
    simp only [FuseCall.onMount, FuseCall.handle, fuseserverUnlink, hunlink, Option.map_some,
      Reply.timeless]
  simp only [FileTree.answer, FileTree.unlink] at hanswer
  split at hanswer
  · next d hnode =>
      obtain ⟨dcontent, hcontent, hd⟩ := h.dir hnode
      have habsent : (∀ n, d.lookup name = some n → isdir n.toNat = true) →
          ∃ s', FuseCall.onMount fmt s (.unlink parent name, c) = some (.err .enoent, s') ∧
            s'.Mounts t := by
        intro hname
        obtain ⟨s', hunlink, halike⟩ :=
          YfsClient.unlink_absent hcontent (unlinkLoop_absent hd hname) c.moments
        exact hstays s' hunlink halike
      split at hanswer
      · next n hname =>
          split at hanswer
          · next hfile =>
              cases hanswer
              have hdir : isdir parent = true := by
                simp [isdir, ← t.kinds parent _ hnode, Inode.isfile]
              have hgone : s.server.contents n.toNat = none := by
                refine h.unflushed _ fun hroot => ?_
                rw [hroot] at hfile
                exact absurd hfile (by decide)
              obtain ⟨ost, hloop, host⟩ := unlinkLoop_file hd hname hfile
              obtain ⟨s', hunlink, hs', hserver⟩ :=
                YfsClient.unlink_ok hcontent hdir hloop c.moments
              rw [hgone] at hs'
              refine ⟨s', ?_, fun ino => ?_, fun ino hino => ?_⟩
              · simp only [FuseCall.onMount, FuseCall.handle, fuseserverUnlink, hunlink,
                  Option.map_some, Reply.timeless]
              · rw [hs']
                exact shows_update (shows_update h.shows .missing) (.dir host) ino
              · rw [hserver]
                exact h.unflushed ino hino
          · next hfile =>
              cases hanswer
              refine habsent fun n' hn' => ?_
              cases hname.symm.trans hn'
              simpa [isdir] using hfile
      · next hname =>
          cases hanswer
          refine habsent fun n hn => ?_
          cases hname.symm.trans hn
  · next hother =>
      cases hanswer
      rcases hnode : t.inode parent with _ | (bytes | d)
      · obtain ⟨s', hunlink, halike⟩ :=
          YfsClient.unlink_missing (h.missing hnode) name.bytes c.moments
        exact hstays s' hunlink halike
      · have hdir : ¬ isdir parent = true := by
          simp [isdir, ← t.kinds parent _ hnode, Inode.isfile]
        exact hstays s (if_neg hdir) ⟨rfl, rfl⟩
      · exact absurd hnode (hother d)

/-- One request. -/
theorem YfsClient.Mounts.step {call : FuseCall} (h : s.Mounts t)
    (hstep : t.step fmt call = some (reply, t')) :
    ∃ s', FuseCall.onMount fmt s (call, c) = some (reply, s') ∧ s'.Mounts t' := by
  unfold FileTree.step at hstep
  split at hstep
  · next hfits =>
      have hanswer := Option.some.inj hstep
      cases call with
      | getattr ino => exact h.getattr hanswer
      | setattr ino toSet size => exact h.setattr hfits hanswer
      | read ino size off => exact h.read hfits hanswer
      | write ino off buf => exact h.write hfits hanswer
      | create parent name random | mknod parent name random | mkdir parent name random =>
          obtain ⟨hunused, hparent⟩ := Bool.and_eq_true_iff.mp hfits
          exact h.createhelper (fun _ => rfl) hunused (by simpa using hparent) hanswer
      | lookup parent name =>
          cases hanswer
          exact h.lookup fmt name c (by simpa [FileTree.fits] using hfits)
      | readdir ino size off => exact h.readdir hanswer
      | unlink parent name => exact h.unlink hanswer
  · cases hstep

end Handlers

/-! ## 5. Mounts -/

theorem mounts_start : YfsClient.start.Mounts FileTree.new := by
  have hserver : YfsClient.start.server.contents =
      Function.update (fun _ : Nat => (none : Option Buf)) 1 (some []) := rfl
  have hcontent : YfsClient.start.content =
      Function.update (fun _ : Nat => (none : Option Buf)) 1 (some []) :=
    funext fun _ => Option.none_or
  have hroot : Represents [] ∅ := TextStream.words_nil
  refine ⟨fun ino => ?_, fun ino hino => ?_⟩
  · rw [hcontent]
    exact shows_update (fun _ => .missing) (.dir hroot) ino
  · rw [hserver, Function.update_of_ne hino]

/-- The number at the end of a path, looked up name by name.  Below a file nothing is looked up. -/
def YfsClient.walk (fmt : DirentFormat) (c : Circumstances) :
    YfsClient → Nat → List Name → Option Nat
  | _, ino, [] => some ino
  | s, ino, name :: path =>
      if isdir ino then
        match FuseCall.onMount fmt s (.lookup ino name, c) with
        | some (.entry e, s) => s.walk fmt c e.ino path
        | _ => none
      else none

theorem FileTree.isFile_of_isdir {t : FileTree} {ino : Nat} (h : isdir ino = true) :
    t.isFile ino = false := by
  rcases hnode : t.inode ino with _ | node
  · simp [FileTree.isFile, hnode]
  · have hfile : isfile ino = false := by simpa [isdir] using h
    simp [FileTree.isFile, hnode, t.kinds ino node hnode, hfile]

theorem FileTree.childOf_eq_none {t : FileTree} {ino : Nat} (h : ¬ isdir ino = true) (name : Name) :
    childOf t.inode ino name = none := by
  rcases hnode : t.inode ino with _ | (bytes | d)
  · exact childOf_missing hnode name
  · exact childOf_file hnode name
  · exact absurd (by simp [isdir, ← t.kinds ino _ hnode, Inode.isfile]) h

/-- The handlers find what the tree has. -/
theorem YfsClient.Mounts.walk_eq {fmt : DirentFormat} {t : FileTree} {c : Circumstances}
    (path : List Name) :
    ∀ {s : YfsClient} {ino : Nat}, s.Mounts t →
      s.walk fmt c ino path = resolve (childOf t.inode) ino path := by
  induction path with
  | nil => exact fun _ => rfl
  | cons name path ih =>
      intro s ino h
      by_cases hdir : isdir ino = true
      · have hfile := FileTree.isFile_of_isdir (t := t) hdir
        obtain ⟨s', hlookup, hs'⟩ := h.lookup fmt name c hfile
        rw [YfsClient.walk, if_pos hdir, hlookup, resolve]
        have hnode : ∀ bytes, t.inode ino ≠ some (.file bytes) := by
          intro bytes hbytes
          simp [FileTree.isFile, hbytes, Inode.isfile] at hfile
        cases hchild : childOf t.inode ino name with
        | none =>
            have hreply : t.lookup ino name = .err .enoent := by
              unfold FileTree.lookup
              split
              · next bytes hbytes => exact absurd hbytes (hnode bytes)
              · rw [hchild]
            rw [hreply]
            rfl
        | some n =>
            obtain ⟨node, hfound⟩ := Option.ne_none_iff_exists'.mp (t.tree.edge hchild).2
            have hreply : t.lookup ino name = .entry (.of n (node.stat n)) := by
              unfold FileTree.lookup
              split
              · next bytes hbytes => exact absurd hbytes (hnode bytes)
              · rw [hchild]
                simp only [hfound]
            rw [hreply]
            exact ih hs'
      · rw [YfsClient.walk, if_neg hdir, resolve, FileTree.childOf_eq_none hdir]
        rfl

/-- Requests that fit, one after the other. -/
theorem YfsClient.Mounts.answered {fmt : DirentFormat} {s : YfsClient} {t t' : FileTree}
    (h : s.Mounts t) {calls : List (FuseCall × Circumstances)} {replies : List Reply}
    (hcalls : results (FileTree.step fmt) t (calls.map Prod.fst) = some (replies, t')) :
    ∃ s', results (FuseCall.onMount fmt) s calls = some (replies, s') ∧ s'.Mounts t' :=
  results_simulate (fun _ _ _ _ _ hstate hstep => hstate.step hstep) h hcalls

/-- **A mount is a tree of files.**  As long as the requests fit, the handlers give the replies of
    the tree, up to the times.  Every extent that there is then has exactly one path from the
    root. -/
theorem mount_is_file_tree {fmt : DirentFormat} {s : YfsClient} {t t' : FileTree}
    (h : s.Mounts t) {calls : List (FuseCall × Circumstances)} {replies : List Reply}
    (hcalls : results (FileTree.step fmt) t (calls.map Prod.fst) = some (replies, t')) :
    ∃ s', results (FuseCall.onMount fmt) s calls = some (replies, s') ∧ s'.Mounts t' ∧
      ∀ ino c, s'.content ino ≠ none → ∃! path, s'.walk fmt c 1 path = some ino := by
  obtain ⟨s', hreplies, hmounts⟩ := h.answered hcalls
  refine ⟨s', hreplies, hmounts, fun ino c hino => ?_⟩
  have hnode : t'.inode ino ≠ none := fun hnone => hino (hmounts.missing hnone)
  obtain ⟨path, hpath, hunique⟩ := t'.tree.existsUnique_path hnode
  refine ⟨path, ?_, fun other hother => hunique other ?_⟩
  · show s'.walk fmt c 1 path = some ino
    rw [YfsClient.Mounts.walk_eq path hmounts, hpath]
  · show resolve (childOf t'.inode) 1 other = some ino
    rw [← YfsClient.Mounts.walk_eq other hmounts, hother]

/-! A file in a directory, and the file is gone again. -/

def idle : Circumstances := ⟨noon, .of 0 (.blank 0)⟩

def treeCalls : List (FuseCall × Circumstances) :=
  [(.mkdir 1 nameA (6#31).toFin, idle), (.create 6 nameOneAt (5#31).toFin, idle),
    (.create 6 nameOneAt (7#31).toFin, idle), (.write 0x80000005 3 [97, 98], idle),
    (.setattr 0x80000005 true 4, idle), (.read 0x80000005 9 2, idle), (.unlink 1 nameA, idle),
    (.lookup 6 nameOneAt, idle), (.readdir 6 40 0, idle), (.unlink 6 nameOneAt, idle),
    (.lookup 6 nameOneAt, idle), (.getattr 0x80000005, idle)]

def fileStat (size : Nat) : Stat := ⟨0x80000005, regularMode, 1, 0, 0, 0, size⟩

def treeReplies : List Reply :=
  [.entry (.of 6 ⟨6, directoryMode, 2, 0, 0, 0, 0⟩), .create (.of 0x80000005 (fileStat 0)),
    .err .eexist, .write 2, .attr (fileStat 4), .buf [0, 97], .err .enoent,
    .entry (.of 0x80000005 (fileStat 4)),
    .buf (fuseDirent.addDirent [49, 64] 0x80000005 32), .err .success, .err .enoent, .err .enoent]

theorem mount_is_file_tree_root :
    ∃ s, results (FuseCall.onMount fuseDirent) YfsClient.start treeCalls = some (treeReplies, s) ∧
      ∃! path, s.walk fuseDirent idle 1 path = some 6 := by
  have hreplies : (results (FileTree.step fuseDirent) FileTree.new
      (treeCalls.map Prod.fst)).map (fun out => (out.1, (out.2.inode 6).isSome)) =
        some (treeReplies, true) := by decide +kernel
  obtain ⟨⟨replies, t⟩, hcalls, hseen⟩ := Option.map_eq_some_iff.mp hreplies
  obtain ⟨rfl, hsix⟩ := Prod.mk.inj hseen
  obtain ⟨s, hs, hmounts, hpaths⟩ := mount_is_file_tree mounts_start hcalls
  obtain ⟨node, hnode⟩ := Option.isSome_iff_exists.mp hsix
  refine ⟨s, hs, hpaths 6 idle fun hnone => ?_⟩
  have hshows := hmounts.shows 6
  rw [hnone, hnode] at hshows
  cases hshows

/-- **A directory can be read in pieces.**  A reply for the offset of an entry goes on with the next
    one: it has all of the following entries that fit into it, and is empty only behind the last. -/
theorem readdir_resumes (fmt : DirentFormat) {s : YfsClient} {t : FileTree} {ino : Nat}
    {d : Directory} (h : s.Mounts t) (hdir : t.inode ino = some (.dir d))
    (seen rest : List (Buf × Nat)) (hlisting : listing d = seen ++ rest) (size : Nat)
    (c : Circumstances) :
    ∃ bytes s', FuseCall.onMount fmt s (.readdir ino size (dirbuf fmt seen).length, c) =
        some (.buf bytes, s') ∧ s'.Mounts t ∧ bytes.length ≤ size ∧
      (∀ page more, rest = page ++ more →
        (direntsFrom fmt (dirbuf fmt seen).length page).length ≤ size →
        direntsFrom fmt (dirbuf fmt seen).length page <+: bytes) ∧
      (0 < size → (bytes = [] ↔ rest = [])) := by
  have hanswer : t.answer fmt (.readdir ino size (dirbuf fmt seen).length) =
      (.buf ((direntsFrom fmt (dirbuf fmt seen).length rest).take size), t) := by
    simp only [FileTree.answer, hdir, hlisting, replyBufLimited_dirbuf]
  obtain ⟨s', hreply, hmounts⟩ := h.readdir (c := c) hanswer
  refine ⟨_, s', hreply, hmounts, List.length_take_le .., ?_, fun hsize => ?_⟩
  · rintro page more rfl hfits
    rw [direntsFrom_append, List.take_append, List.take_of_length_le hfits]
    exact List.prefix_append _ _
  · rw [List.take_eq_nil_iff, direntsFrom_eq_nil]
    simp [Nat.ne_of_gt hsize]

def twoDirectories : List (FuseCall × Circumstances) :=
  [(.mkdir 1 nameA (6#31).toFin, idle), (.mkdir 1 nameOneAt (7#31).toFin, idle)]

theorem readdir_resumes_second :
    ∃ s t d, s.Mounts t ∧ t.inode 1 = some (.dir d) ∧
      listing d = [([97], 6)] ++ [([49, 64], 7)] ∧
      ∃ bytes s', FuseCall.onMount fuseDirent s (.readdir 1 40 32, idle) =
        some (.buf bytes, s') ∧ fuseDirent.addDirent [49, 64] 7 64 <+: bytes := by
  have hseen : (results (FileTree.step fuseDirent) FileTree.new
      (twoDirectories.map Prod.fst)).map (fun out => (out.2.inode 1).map fun
        | .dir d => listing d
        | .file _ => []) = some (some [([97], 6), ([49, 64], 7)]) := by decide +kernel
  obtain ⟨⟨replies, t⟩, hcalls, hroot⟩ := Option.map_eq_some_iff.mp hseen
  obtain ⟨s, -, hmounts⟩ := mounts_start.answered hcalls
  obtain ⟨node, hnode, hlisting⟩ := Option.map_eq_some_iff.mp hroot
  cases node with
  | file bytes => cases hlisting
  | dir d =>
      obtain ⟨bytes, s', hreply, -, -, hpage, -⟩ :=
        readdir_resumes fuseDirent hmounts hnode [([97], 6)] [([49, 64], 7)] hlisting 40 idle
      refine ⟨s, t, d, hmounts, hnode, hlisting, bytes, s', hreply, ?_⟩
      exact hpage [([49, 64], 7)] [] rfl (by decide)

end DistributedLab.Yfs
