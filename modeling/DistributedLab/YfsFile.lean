import DistributedLab.BigEndian
import DistributedLab.SparseArray
import DistributedLab.Yfs

/-!
# The content of a file

`read`, `write` and `setsize` of a `yfs_client`.  A `write` cuts the content apart and puts it
together with the new bytes; this makes the file a sparse array of bytes.  `setsize` fills up a
file with a loop whose bound falls while its counter rises, so that the two meet half way, and
what it adds are blanks.
-/

namespace DistributedLab.Yfs

open Extent Transition
open BigEndian (sizeT sizeT_natCast)

/-! ### The operations -/

/-- The length of a string in an `int`. -/
def intLength (buf : Buf) : Int := (Int32.ofNat buf.length).toInt

/-- The content is read, changed and written back. -/
def YfsClient.modify (s : YfsClient) (inum : Nat) (change : Buf → Buf) (m : Moments) :
    XxStatus × YfsClient :=
  match s.get inum (m 0) with
  | (.ok, buf, s) =>
      match s.put inum (m 1) (change buf) with
      | (.ok, s) => (.ok, s)
      | (_, s) => (.ioerr, s)
  | (_, _, s) => (.noent, s)

/-- `for (int i = 0; i < size - buf.length(); i ++) buf.append(" ")`. -/
def padLoop (size : Nat) : Nat → Nat → Buf → Buf
  | 0, _, buf => buf
  | fuel + 1, i, buf =>
      if i < size - buf.length then padLoop size fuel (i + 1) (buf ++ [32]) else buf

def resize (size : Nat) (buf : Buf) : Buf :=
  if buf.length > size then buf.take size else padLoop size size 0 buf

def YfsClient.setsize (s : YfsClient) (inum size : Nat) (m : Moments) : XxStatus × YfsClient :=
  s.modify inum (resize size) m

def YfsClient.read (s : YfsClient) (inum size : Nat) (off : Int) (m : Moments) :
    XxStatus × Buf × YfsClient :=
  match s.get inum (m 0) with
  | (.ok, buf, s) =>
      let pos := if sizeT off > buf.length then buf.length else sizeT off
      (.ok, (buf.drop pos).take size, s)
  | (_, buf, s) => (.noent, buf, s)

/-- The loop that fills up the gap runs `off - n` times. -/
def overwrite (off : Int) (buf content : Buf) : Buf :=
  let next := (sizeT off + buf.length) % 2 ^ 64
  let tail := if next < content.length then content.drop next else []
  let front :=
    if sizeT off ≤ content.length then content.take (sizeT off)
    else content ++ List.replicate (off - intLength content).toNat 0
  front ++ (buf ++ tail)

def YfsClient.write (s : YfsClient) (inum : Nat) (off : Int) (buf : Buf) (m : Moments) :
    XxStatus × YfsClient :=
  s.modify inum (overwrite off buf) m

section Operations

variable {s : YfsClient} {inum : Nat} {content : Buf}

theorem YfsClient.modify_some (h : s.content inum = some content) (change : Buf → Buf)
    (m : Moments) : ∃ t, s.modify inum change m = (.ok, t) ∧
      t.content = Function.update s.content inum (some (change content)) := by
  obtain ⟨between, hget, hbetween⟩ := YfsClient.get_some (m := m 0) h
  refine ⟨(between.put inum (m 1) (change content)).2, ?_, ?_⟩
  · simp [YfsClient.modify, hget, YfsClient.put]
  · rw [YfsClient.content_put, hbetween]

end Operations

/-! ### Reads and writes -/

theorem intLength_of_lt {buf : Buf} (h : buf.length < 2 ^ 31) : intLength buf = buf.length :=
  Int32.toInt_ofNat_of_lt h

theorem overwrite_eq {off : Nat} {buf : Buf} (content : Buf) (h : off + buf.length < 2 ^ 31) :
    overwrite off buf content =
      SparseArray.fit 0 content off ++ (buf ++ content.drop (off + buf.length)) := by
  have hoff : sizeT off = off := sizeT_natCast (by omega)
  have hnext : (off + buf.length) % 2 ^ 64 = off + buf.length := Nat.mod_eq_of_lt (by omega)
  have htail : (if off + buf.length < content.length then content.drop (off + buf.length)
      else []) = content.drop (off + buf.length) := by
    by_cases hlt : off + buf.length < content.length
    · rw [if_pos hlt]
    · rw [if_neg hlt, List.drop_eq_nil_of_le (by omega)]
  have hfront : (if off ≤ content.length then content.take off
      else content ++ List.replicate ((off : Int) - intLength content).toNat 0) =
        SparseArray.fit 0 content off := by
    by_cases hle : off ≤ content.length
    · rw [if_pos hle, SparseArray.fit, Nat.sub_eq_zero_of_le hle, List.replicate_zero,
        List.append_nil]
    · have hgap : ((off : Int) - intLength content).toNat = off - content.length := by
        rw [intLength_of_lt (by omega)]
        omega
      rw [if_neg hle, hgap, SparseArray.fit, List.take_of_length_le (by omega)]
  simp only [overwrite, hoff, hnext, htail, hfront]

theorem YfsClient.read_some {s : YfsClient} {inum off : Nat} {content : Buf}
    (h : s.content inum = some content) (size : Nat) (hoff : off < 2 ^ 63) (m : Moments) :
    ∃ t, s.read inum size off m = (.ok, (content.drop off).take size, t) ∧
      t.content = s.content := by
  obtain ⟨t, hget, ht⟩ := YfsClient.get_some (m := m 0) h
  refine ⟨t, ?_, ht⟩
  have hpos : content.drop (if off > content.length then content.length else off) =
      content.drop off := by
    by_cases hgt : off > content.length
    · rw [if_pos hgt, List.drop_length, List.drop_eq_nil_of_le (by omega)]
    · rw [if_neg hgt]
  have hsize : sizeT off = off := sizeT_natCast (by omega)
  simp only [YfsClient.read, hget, hsize, hpos]

inductive FileCall where
  | write (off : Nat) (buf : Buf)
  | read (size off : Nat)

inductive FileResult where
  | written (status : XxStatus)
  | bytes (status : XxStatus) (buf : Buf)
deriving DecidableEq, Repr

def FileCall.onClient (inum : Nat) (s : YfsClient) (call : FileCall × Moments) :
    Option (FileResult × YfsClient) :=
  match call with
  | (.write off buf, m) =>
      let out := s.write inum off buf m
      some (.written out.1, out.2)
  | (.read size off, m) =>
      let out := s.read inum size off m
      some (.bytes out.1 out.2.1, out.2.2)

def FileCall.onArray (a : SparseArray (0 : UInt8)) :
    FileCall → Option (FileResult × SparseArray (0 : UInt8))
  | .write off buf => some (.written .ok, a.write off buf)
  | .read size off => some (.bytes .ok (a.read size off), a)

/-- A write ends below 2³¹; a read may be at any offset that an `off_t` holds. -/
def FileCall.InRange : FileCall → Prop
  | .write off buf => off + buf.length < 2 ^ 31
  | .read _ off => off < 2 ^ 63

instance (call : FileCall) : Decidable call.InRange :=
  match call with
  | .write off buf => inferInstanceAs (Decidable (off + buf.length < 2 ^ 31))
  | .read _ off => inferInstanceAs (Decidable (off < 2 ^ 63))

def YfsClient.Stores (inum : Nat) (s : YfsClient) (a : SparseArray (0 : UInt8)) : Prop :=
  ∃ content, s.content inum = some content ∧ SparseArray.ofList 0 content = a

theorem FileCall.step_refines {s : YfsClient} {inum : Nat} {a : SparseArray (0 : UInt8)}
    (h : s.Stores inum a) (call : FileCall) (hcall : call.InRange) (m : Moments) :
    Agree (FileCall.onClient inum) FileCall.onArray (YfsClient.Stores inum) s a (call, m) call := by
  obtain ⟨content, hcontent, rfl⟩ := h
  cases call with
  | write off buf =>
      obtain ⟨t, hwrite, ht⟩ := YfsClient.modify_some hcontent (overwrite off buf) m
      refine ⟨.written .ok, t, _, ?_, rfl, overwrite off buf content, ?_, ?_⟩
      · simp [FileCall.onClient, YfsClient.write, hwrite]
      · rw [ht, Function.update_self]
      · rw [overwrite_eq content hcall, SparseArray.ofList_write]
  | read size off =>
      obtain ⟨t, hread, ht⟩ := YfsClient.read_some hcontent size hcall m
      refine ⟨.bytes .ok ((content.drop off).take size), t, SparseArray.ofList 0 content, ?_, ?_,
        content, ?_, rfl⟩
      · simp [FileCall.onClient, hread]
      · rw [FileCall.onArray, SparseArray.read_ofList]
      · rw [ht, hcontent]

/-- **Files are sparse arrays.**  A sequence of reads and writes returns from a file what it
    returns from the array of the file's bytes, and leaves in the file what it leaves in the
    array. -/
theorem file_is_sparse_array {s : YfsClient} {inum : Nat} {content : Buf}
    (h : s.content inum = some content) (calls : List (FileCall × Moments))
    (hcalls : ∀ call ∈ calls, call.1.InRange) :
    ∃ outs t a, results (FileCall.onClient inum) s calls = some (outs, t) ∧
      results FileCall.onArray (.ofList 0 content) (calls.map Prod.fst) = some (outs, a) ∧
      t.Stores inum a := by
  apply results_refine
  · intro call hmem state a hstate
    exact FileCall.step_refines hstate call.1 (hcalls call hmem) call.2
  · exact ⟨content, h, rfl⟩

/-! A write behind the end of a new file, and a read across the gap. -/

def noon : Moments := fun _ => ⟨12, 12, Attr.zero⟩

def fileWith (buf : Buf) : YfsClient := (YfsClient.start.put 0x80000000 (noon 0) buf).2

theorem content_fileWith (buf : Buf) : (fileWith buf).content 0x80000000 = some buf := by
  rw [fileWith, YfsClient.content_put, Function.update_self]

theorem file_is_sparse_array_gap :
    ∃ t, results (FileCall.onClient 0x80000000) (fileWith [])
      [(.write 3 [97, 98], noon), (.read 9 2, noon)] =
        some ([.written .ok, .bytes .ok [0, 97, 98]], t) := by
  obtain ⟨outs, t, a, hclient, harray, -⟩ := file_is_sparse_array (content_fileWith [])
    [(.write 3 [97, 98], noon), (.read 9 2, noon)]
    (List.forall_mem_cons.mpr ⟨by decide, List.forall_mem_singleton.mpr (by decide)⟩)
  refine ⟨t, ?_⟩
  rw [hclient]
  cases harray
  rfl

/-! ### Setting the size -/

/-- The counter and the bound meet half way between the length and the size. -/
theorem padLoop_eq {size : Nat} (fuel i : Nat) (buf : Buf)
    (hfuel : (size - buf.length - i + 1) / 2 ≤ fuel) :
    padLoop size fuel i buf = buf ++ List.replicate ((size - buf.length - i + 1) / 2) 32 := by
  induction fuel generalizing i buf with
  | zero => rw [padLoop, Nat.le_zero.mp hfuel, List.replicate_zero, List.append_nil]
  | succ fuel ih =>
      rw [padLoop]
      by_cases hlt : i < size - buf.length
      · have hlength : (buf ++ [32]).length = buf.length + 1 := List.length_append
        have hhalf : (size - buf.length - i + 1) / 2 =
            (size - (buf ++ [32]).length - (i + 1) + 1) / 2 + 1 := by omega
        rw [if_pos hlt, ih _ _ (by omega), hhalf, List.replicate_succ, List.append_assoc]
        rfl
      · have hzero : (size - buf.length - i + 1) / 2 = 0 := by omega
        rw [if_neg hlt, hzero, List.replicate_zero, List.append_nil]

theorem resize_of_le {size : Nat} {buf : Buf} (h : size ≤ buf.length) :
    resize size buf = buf.take size := by
  rcases Nat.lt_or_eq_of_le h with hlt | rfl
  · rw [resize, if_pos hlt]
  · rw [resize, if_neg (Nat.lt_irrefl _), padLoop_eq _ _ _ (by omega), List.take_length]
    simp

theorem resize_of_lt {size : Nat} {buf : Buf} (h : buf.length < size) :
    resize size buf = buf ++ List.replicate ((size - buf.length + 1) / 2) 32 := by
  rw [resize, if_neg (by omega), padLoop_eq _ _ _ (by omega), Nat.sub_zero]

/-- The new content is as long as asked for, begins like the old one, and adds zeros only. -/
structure SetsExactly (old : Buf) (size : Nat) (new : Buf) : Prop where
  length : new.length = size
  kept : new.take (min old.length size) = old.take (min old.length size)
  added : ∀ i, old.length ≤ i → i < new.length → new[i]? = some 0

/-- **`setsize` sets the size exactly if the file does not grow.**  A file that grows gets half
    of the bytes that are missing, and they are blanks. -/
theorem setsize_exact_iff {s : YfsClient} {inum : Nat} {old : Buf}
    (h : s.content inum = some old) (size : Fin (2 ^ 31)) (m : Moments) :
    ∃ t new, s.setsize inum size m = (.ok, t) ∧
      t.content = Function.update s.content inum (some new) ∧
      (SetsExactly old size new ↔ size ≤ old.length) ∧
      (old.length < size →
        new = old ++ List.replicate ((size - old.length + 1) / 2) 32) := by
  obtain ⟨t, hset, ht⟩ := YfsClient.modify_some h (resize size) m
  refine ⟨t, resize size old, hset, ht, ⟨?_, ?_⟩, resize_of_lt⟩
  · intro hexact
    by_contra hgrow
    have hnew := resize_of_lt (Nat.lt_of_not_le hgrow)
    have hblank : (resize size old)[old.length]? = some 32 := by
      rw [hnew, List.getElem?_append_right (Nat.le_refl _), Nat.sub_self,
        List.getElem?_replicate, if_pos (by omega)]
    obtain ⟨hin, -⟩ := List.getElem?_eq_some_iff.mp hblank
    have hzero := hexact.added old.length (Nat.le_refl _) hin
    exact absurd (hblank.symm.trans hzero) (by decide)
  · intro hle
    rw [resize_of_le hle]
    have hlength : (old.take size).length = size := List.length_take_of_le hle
    refine ⟨hlength, ?_, ?_⟩
    · rw [List.take_take, Nat.min_assoc, Nat.min_self]
    · intro i hi hin
      omega

theorem setsize_exact_iff_cut :
    ∃ t new, (fileWith [97, 98]).setsize 0x80000000 1 noon = (.ok, t) ∧
      t.content 0x80000000 = some new ∧ SetsExactly [97, 98] 1 new := by
  obtain ⟨t, new, hset, ht, hexact, -⟩ := setsize_exact_iff (content_fileWith [97, 98]) 1 noon
  refine ⟨t, new, hset, ?_, hexact.mpr (by decide)⟩
  rw [ht, Function.update_self]

/-- An empty file of which four bytes are asked for gets two blanks. -/
theorem setsize_stops_half_way :
    (fileWith []).content 0x80000000 = some [] ∧
      ((fileWith []).setsize 0x80000000 4 noon).1 = .ok ∧
      ((fileWith []).setsize 0x80000000 4 noon).2.content 0x80000000 = some [32, 32] ∧
      ¬ SetsExactly [] 4 [32, 32] :=
  ⟨content_fileWith [], by decide +kernel, by decide +kernel, fun h => absurd h.length (by decide)⟩

end DistributedLab.Yfs
