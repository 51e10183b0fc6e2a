import DistributedLab.Connection
import DistributedLab.WireFormat

/-!
# Bytes from the network

Neither the length of a string nor the size of a PDU can be trusted: both come from the
peer.  An unmarshaller compares a length with what is left of its buffer, and `readpdu`
compares a size with `MAX_PDU`.

Both comparisons miss a case.  The end of a string is computed as an `unsigned`, so a length
close to `2 ^ 32` makes it wrap around and pass the test.  The size is compared as an `int`
and from above only, so a size that does not even cover itself passes, a negative one as
well.  The results below say exactly when the bounds hold.
-/

namespace DistributedLab.Wire

open Transition

/-! ## 1. Reading from a buffer

A value is read by reading bytes and strings one after the other; what comes next may
depend on what was read. -/

/-- `take_in`, from an unmarshaller whose buffer is handed over. -/
def Unmarshall.takeIn (another : Unmarshall) : Unmarshall :=
  ⟨another.buf, rpcHeaderSz, decide (another.buf.length ≥ rpcHeaderSz)⟩

/-- Unmarshallers whose header has been accepted: in a server after the header of a request, in a
    client when the reply is taken in, and those made from the content of a string. -/
inductive Unmarshall.Accepted : Unmarshall → Prop
  | request {buf : List UInt8} (size : buf.length < 2 ^ 31)
      (ok : (unpackReqHeader (.ofBuf buf)).2.ok = true) :
      Accepted (unpackReqHeader (.ofBuf buf)).2
  | reply {buf : List UInt8} (size : buf.length < 2 ^ 31)
      (header : (unpackReplyHeader (.ofBuf buf)).2.ok = true)
      (ok : (unpackReplyHeader (.ofBuf buf)).2.takeIn.ok = true) :
      Accepted (unpackReplyHeader (.ofBuf buf)).2.takeIn
  | content (memory : Nat → UInt8) {s : List UInt8} (size : rpcHeaderSz + s.length < 2 ^ 31) :
      Accepted (.takeContent memory s)

inductive Read where
  | byte
  | string (old : List UInt8)
deriving DecidableEq, Repr

def reader : System Unmarshall Read where
  init := Unmarshall.Accepted
  step u
    | .byte => some (rawbyte u).2
    | .string old => some (Codec.string.get old u).2

/-- What a read leaves as it is, it leaves so when other reads follow. -/
def Keeps {α : Type} (P : Unmarshall → Prop) (p : StateM Unmarshall α) : Prop :=
  ∀ u, P u → P (p u).2

section Keeps

variable {α β : Type} {P : Unmarshall → Prop} {p : StateM Unmarshall α}

theorem Keeps.bind {f : α → StateM Unmarshall β} (hp : Keeps P p) (hf : ∀ a, Keeps P (f a)) :
    Keeps P (p >>= f) := by
  intro u hu
  rw [bind_apply]
  exact hf _ _ (hp u hu)

theorem Keeps.pure (v : α) : Keeps P (Pure.pure v) := fun _ hu => hu

theorem Keeps.unsignedInt (h : Keeps P rawbyte) (old : UInt32) :
    Keeps P (Codec.unsignedInt.get old) := by
  refine h.bind fun a => ?_
  refine h.bind fun b => ?_
  refine h.bind fun c => ?_
  exact h.bind fun d => .pure _

theorem Keeps.string (h : Keeps P rawbyte) {old : List UInt8}
    (hs : ∀ n, Keeps P (rawbytes old n)) : Keeps P (Codec.string.get old) := by
  refine (h.unsignedInt _).bind fun n => ?_
  intro u hu
  show P ((if u.ok then rawbytes old n else Pure.pure old) u).2
  split_ifs
  · exact hs n u hu
  · exact hu

end Keeps

/-- The read position lies in the buffer, whose size is an `int`. -/
structure Unmarshall.InBounds (u : Unmarshall) : Prop where
  size : u.buf.length < 2 ^ 31
  ind_le : u.ind ≤ u.buf.length

theorem keeps_ok_rawbyte : Keeps (fun u => u.ok = false) rawbyte := by
  intro u hu
  unfold rawbyte
  split
  · rfl
  · exact hu

theorem keeps_ok_rawbytes (old : List UInt8) (n : UInt32) :
    Keeps (fun u => u.ok = false) (rawbytes old n) := by
  intro u hu
  unfold rawbytes
  split_ifs
  · rfl
  · exact hu

theorem keeps_inBounds_rawbyte : Keeps Unmarshall.InBounds rawbyte := by
  intro u hu
  unfold rawbyte
  split
  · exact ⟨hu.size, hu.ind_le⟩
  · rename_i c hc
    exact ⟨hu.size, (List.getElem?_eq_some_iff.mp hc).1⟩

/-- The position may wrap around, but it does not leave the buffer. -/
theorem keeps_inBounds_rawbytes (old : List UInt8) (n : UInt32) :
    Keeps Unmarshall.InBounds (rawbytes old n) := by
  intro u hu
  unfold rawbytes
  split_ifs with hend
  · exact ⟨hu.size, hu.ind_le⟩
  · refine ⟨hu.size, ?_⟩
    have hle := UInt32.le_iff_toNat_le.mp (UInt32.not_lt.mp hend)
    rwa [toNat_ofNat_of_int hu.size] at hle

theorem reader_step_cases {P : Unmarshall → Prop} (hbyte : Keeps P rawbyte)
    (hbytes : ∀ old n, Keeps P (rawbytes old n)) {u next : Unmarshall} {action : Read}
    (h : reader.step u action = some next) (hu : P u) : P next := by
  cases action with
  | byte =>
      cases h
      exact hbyte u hu
  | string old =>
      cases h
      exact hbyte.string (hbytes old) u hu

/-- A property that both primitives keep holds along every run of reads. -/
theorem reader_keeps {P : Unmarshall → Prop} (hbyte : Keeps P rawbyte)
    (hbytes : ∀ old n, Keeps P (rawbytes old n)) {u final : Unmarshall}
    (h : reader.Steps anyStep u final) (hu : P u) : P final := by
  induction h with
  | refl => exact hu
  | step _ _ taken ih => exact reader_step_cases hbyte hbytes taken ih

/-! ### Types -/

/-- Reading with `p` is a run of reads of bytes and strings. -/
def Stepwise {α : Type} (p : StateM Unmarshall α) : Prop :=
  ∀ u, reader.Steps anyStep u (p u).2

section Stepwise

variable {α β : Type}

theorem Stepwise.bind {p : StateM Unmarshall α} {f : α → StateM Unmarshall β} (hp : Stepwise p)
    (hf : ∀ a, Stepwise (f a)) : Stepwise (p >>= f) := by
  intro u
  rw [bind_apply]
  exact (hp u).trans (hf _ _)

theorem Stepwise.pure (v : α) : Stepwise (Pure.pure v) := fun _ => .refl

theorem stepwise_rawbyte : Stepwise rawbyte := by
  intro u
  exact .step .refl trivial (rfl : reader.step u .byte = _)

theorem stepwise_string (old : List UInt8) : Stepwise (Codec.string.get old) := by
  intro u
  exact .step .refl trivial (rfl : reader.step u (.string old) = _)

theorem Stepwise.rawbyte_bind {f : UInt32 → StateM Unmarshall α} (h : ∀ c, Stepwise (f c)) :
    Stepwise (rawbyte >>= f) :=
  stepwise_rawbyte.bind h

theorem stepwise_unsignedInt (old : UInt32) : Stepwise (Codec.unsignedInt.get old) := by
  apply Stepwise.rawbyte_bind; intro a
  apply Stepwise.rawbyte_bind; intro b
  apply Stepwise.rawbyte_bind; intro c
  apply Stepwise.rawbyte_bind; intro d
  exact .pure _

theorem stepwise_unpack : Stepwise unpack := by
  apply Stepwise.rawbyte_bind; intro a
  apply Stepwise.rawbyte_bind; intro b
  apply Stepwise.rawbyte_bind; intro c
  apply Stepwise.rawbyte_bind; intro d
  exact .pure _

theorem stepwise_getElements {c : Codec α} (h : ∀ old, Stepwise (c.get old)) (n : Nat)
    (v : List α) : Stepwise (getElements c n v) := by
  induction n generalizing v with
  | zero => exact .pure v
  | succ n ih => exact (h c.fresh).bind fun z => ih (v ++ [z])

theorem stepwise_getEntries [Ord α] [Std.TransOrd α] [Std.LawfulEqOrd α] {c : Codec α}
    {d : Codec β} (hc : ∀ old, Stepwise (c.get old)) (hd : ∀ old, Stepwise (d.get old)) (n : Nat)
    (entries : OrderedMap α β) : Stepwise (getEntries c d n entries) := by
  induction n generalizing entries with
  | zero => exact .pure entries
  | succ n ih =>
      exact (hc c.fresh).bind fun a => (hd d.fresh).bind fun b => ih (entries.insert a b)

theorem stepwise_propT (old : PropT) : Stepwise (Codec.propT.get old) :=
  (stepwise_unsignedInt _).bind fun _ => (stepwise_string _).bind fun _ => .pure _

theorem stepwise_viewstamp (old : Viewstamp) : Stepwise (Codec.viewstamp.get old) :=
  (stepwise_unsignedInt _).bind fun _ => (stepwise_unsignedInt _).bind fun _ => .pure _

/-- Whatever counts and lengths the bytes declare, a value of any type is read byte by byte and
    string by string. -/
theorem Marshallable.stepwise {c : Codec α} (h : Marshallable c) (old : α) :
    Stepwise (c.get old) := by
  induction h with
  | bool => exact stepwise_rawbyte.bind fun _ => .pure _
  | char => exact stepwise_rawbyte.bind fun _ => .pure _
  | unsignedChar => exact stepwise_rawbyte.bind fun _ => .pure _
  | short => exact stepwise_rawbyte.bind fun _ => stepwise_rawbyte.bind fun _ => .pure _
  | unsignedShort => exact stepwise_rawbyte.bind fun _ => stepwise_rawbyte.bind fun _ => .pure _
  | int => exact stepwise_unpack
  | unsignedInt => exact stepwise_unsignedInt _
  | unsignedLongLong =>
      exact (stepwise_unsignedInt _).bind fun _ => (stepwise_unsignedInt _).bind fun _ => .pure _
  | string => exact stepwise_string _
  | vector _ ih =>
      exact (stepwise_unsignedInt _).bind fun n => stepwise_getElements ih n.toNat []
  | map _ _ ihc ihd =>
      exact (stepwise_unsignedInt _).bind fun n => stepwise_getEntries ihc ihd n.toNat .empty
  | propT => exact stepwise_propT _
  | prepareArg =>
      exact (stepwise_unsignedInt _).bind fun _ => (stepwise_propT _).bind fun _ => .pure _
  | prepareRes =>
      refine (stepwise_rawbyte.bind fun _ => .pure _).bind fun _ => ?_
      refine (stepwise_rawbyte.bind fun _ => .pure _).bind fun _ => ?_
      exact (stepwise_propT _).bind fun _ => (stepwise_string _).bind fun _ => .pure _
  | acceptArg =>
      refine (stepwise_unsignedInt _).bind fun _ => ?_
      exact (stepwise_propT _).bind fun _ => (stepwise_string _).bind fun _ => .pure _
  | decideArg =>
      exact (stepwise_unsignedInt _).bind fun _ => (stepwise_string _).bind fun _ => .pure _
  | viewstamp => exact stepwise_viewstamp _
  | transferRes =>
      exact (stepwise_string _).bind fun _ => (stepwise_viewstamp _).bind fun _ => .pure _
  | joinRes => exact (stepwise_string _).bind fun _ => .pure _
  | attr =>
      refine (stepwise_unsignedInt _).bind fun _ => (stepwise_unsignedInt _).bind fun _ => ?_
      exact (stepwise_unsignedInt _).bind fun _ => (stepwise_unsignedInt _).bind fun _ => .pure _

end Stepwise

/-! ### Strings -/

/-- The length that a string declares, and the state behind its length field. -/
def Unmarshall.declared (u : Unmarshall) : UInt32 × Unmarshall :=
  Codec.unsignedInt.get Codec.unsignedInt.fresh u

/-- A string is the declared number of bytes behind its length field, all of them in the buffer,
    or it is refused and nothing behind the length field is consumed. -/
def Unmarshall.ReadsString (u : Unmarshall) (old : List UInt8) : Prop :=
  let n := u.declared.1.toNat
  let v := u.declared.2
  v.ok = true ∧ v.ind + n ≤ v.buf.length ∧
      Codec.string.get old u = ((v.buf.drop v.ind).take n, { v with ind := v.ind + n }) ∨
    (Codec.string.get old u).2.ok = false ∧ (Codec.string.get old u).2.ind = v.ind

/-- The end of the string that comes next can be computed. -/
def Unmarshall.EndFits (u : Unmarshall) : Prop :=
  u.declared.2.ok = true → u.declared.2.ind + u.declared.1.toNat < 2 ^ 32

theorem Unmarshall.string_get (u : Unmarshall) (old : List UInt8) :
    Codec.string.get old u =
      if u.declared.2.ok then rawbytes old u.declared.1 u.declared.2 else (old, u.declared.2) := by
  show (if u.declared.2.ok then rawbytes old u.declared.1 else Pure.pure old) u.declared.2 = _
  split_ifs <;> rfl

theorem Unmarshall.InBounds.toNat_end {u : Unmarshall} (h : u.InBounds) (n : UInt32) :
    (UInt32.ofNat u.ind + n).toNat = (u.ind + n.toNat) % 2 ^ 32 := by
  have hle := h.ind_le
  have hsize := h.size
  rw [UInt32.toNat_add, toNat_ofNat_of_int (by omega)]

theorem Unmarshall.InBounds.rawbytes_eq {u : Unmarshall} (h : u.InBounds) {n : UInt32}
    (hend : u.ind + n.toNat < 2 ^ 32) (old : List UInt8) :
    rawbytes old n u =
      if u.ind + n.toNat ≤ u.buf.length then
        ((u.buf.drop u.ind).take n.toNat, { u with ind := u.ind + n.toNat })
      else (old, { u with ok := false }) := by
  have hsum := h.toNat_end n
  rw [Nat.mod_eq_of_lt hend] at hsum
  have hiff : UInt32.ofNat u.ind + n > UInt32.ofNat u.buf.length ↔
      ¬ u.ind + n.toNat ≤ u.buf.length := by
    rw [gt_iff_lt, UInt32.lt_iff_toNat_lt, hsum, toNat_ofNat_of_int h.size, Nat.not_le]
  unfold rawbytes
  by_cases hle : u.ind + n.toNat ≤ u.buf.length
  · rw [if_neg (by rw [hiff]; exact not_not_intro hle), if_pos hle, hsum]
  · rw [if_pos (hiff.mpr hle), if_neg hle]

/-- A length that makes the end wrap around passes the test, and the flag stays set. -/
theorem Unmarshall.InBounds.ok_rawbytes_of_wrap {u : Unmarshall} (h : u.InBounds) {n : UInt32}
    (hend : 2 ^ 32 ≤ u.ind + n.toNat) (old : List UInt8) : (rawbytes old n u).2.ok = u.ok := by
  have hle := h.ind_le
  have hn := n.toNat_lt
  have hpass : ¬ UInt32.ofNat u.ind + n > UInt32.ofNat u.buf.length := by
    rw [gt_iff_lt, UInt32.lt_iff_toNat_lt, h.toNat_end, toNat_ofNat_of_int h.size]
    omega
  unfold rawbytes
  rw [if_neg hpass]

theorem Unmarshall.InBounds.readsString_iff {u : Unmarshall} (h : u.InBounds)
    (old : List UInt8) : u.ReadsString old ↔ u.EndFits := by
  have hv : u.declared.2.InBounds := keeps_inBounds_rawbyte.unsignedInt _ u h
  unfold Unmarshall.ReadsString Unmarshall.EndFits
  rw [Unmarshall.string_get]
  cases hok : u.declared.2.ok with
  | false => simp [hok]
  | true =>
      simp only [if_true, forall_const]
      constructor
      · rintro (⟨-, hle, -⟩ | ⟨hrefused, -⟩)
        · have := hv.size
          omega
        · by_contra hwrap
          rw [hv.ok_rawbytes_of_wrap (Nat.not_lt.mp hwrap), hok] at hrefused
          cases hrefused
      · intro hend
        rw [hv.rawbytes_eq hend]
        split_ifs with hle
        · exact .inl ⟨hok, hle, rfl⟩
        · exact .inr ⟨rfl, rfl⟩

/-! ### Headers -/

/-- If the flag is still set after `p`, then `p` has consumed `k` bytes of the buffer. -/
def Consumes {α : Type} (p : StateM Unmarshall α) (k : Nat) : Prop :=
  ∀ u, (p u).2.ok = true → u.ok = true ∧ (p u).2.buf = u.buf ∧ (p u).2.ind = u.ind + k ∧
    (0 < k → u.ind + k ≤ u.buf.length)

section Consumes

variable {α β : Type}

theorem Consumes.pure (v : α) : Consumes (Pure.pure v) 0 := fun _ hok => ⟨hok, rfl, rfl, nofun⟩

theorem Consumes.bind {p : StateM Unmarshall α} {f : α → StateM Unmarshall β} {j k : Nat}
    (hp : Consumes p j) (hf : ∀ a, Consumes (f a) k) : Consumes (p >>= f) (j + k) := by
  intro u hok
  rw [bind_apply] at hok ⊢
  obtain ⟨hmid, hbuf, hind, hle⟩ := hf _ _ hok
  obtain ⟨hstart, hbuf', hind', hle'⟩ := hp u hmid
  rw [hbuf', hind'] at hle
  refine ⟨hstart, hbuf.trans hbuf', by omega, fun hpos => ?_⟩
  by_cases hk : 0 < k
  · have := hle hk
    omega
  · have := hle' (by omega)
    omega

theorem consumes_rawbyte : Consumes rawbyte 1 := by
  intro u hok
  unfold rawbyte at hok ⊢
  split at hok
  · cases hok
  · rename_i c hc
    exact ⟨hok, rfl, rfl, fun _ => (List.getElem?_eq_some_iff.mp hc).1⟩

theorem consumes_unpack : Consumes unpack 4 :=
  consumes_rawbyte.bind (k := 3) fun _ => consumes_rawbyte.bind (k := 2) fun _ =>
    consumes_rawbyte.bind (k := 1) fun _ => consumes_rawbyte.bind (k := 0) fun _ => .pure _

/-- An accepted header lies in the buffer as far as its fields reach. -/
theorem Consumes.header {fields : StateM Unmarshall α} {k : Nat} (h : Consumes fields k)
    (hk : 0 < k) {buf : List UInt8} (hok : (unpackHeader fields (.ofBuf buf)).2.ok = true) :
    (unpackHeader fields (.ofBuf buf)).2.buf = buf ∧
      (unpackHeader fields (.ofBuf buf)).2.ind = rpcHeaderSz ∧ rpcSzSize + k ≤ buf.length := by
  obtain ⟨-, hbuf, -, hle⟩ := h ⟨buf, rpcSzSize, true⟩ hok
  exact ⟨hbuf, rfl, hle hk⟩

end Consumes

theorem Unmarshall.inBounds_takeIn {another : Unmarshall} (size : another.buf.length < 2 ^ 31)
    (ok : another.takeIn.ok = true) : another.takeIn.InBounds :=
  ⟨size, of_decide_eq_true ok⟩

theorem Unmarshall.Accepted.inBounds {u : Unmarshall} (h : u.Accepted) : u.InBounds := by
  cases h with
  | @request buf size ok =>
      unfold unpackReqHeader at ok ⊢
      have hfields := consumes_unpack.bind fun xid => consumes_unpack.bind fun proc =>
        consumes_unpack.bind fun cltNonce => consumes_unpack.bind fun srvNonce =>
          consumes_unpack.bind fun xidRep =>
            .pure (⟨xid, proc, cltNonce.toUInt32, srvNonce.toUInt32, xidRep⟩ : ReqHeader)
      obtain ⟨hbuf, hind, hle⟩ := hfields.header (by decide) ok
      refine ⟨?_, ?_⟩
      · rw [hbuf]
        exact size
      · rw [hbuf, hind]
        exact hle
  | @reply buf size header ok =>
      unfold unpackReplyHeader at header ok ⊢
      have hfields := consumes_unpack.bind fun xid => consumes_unpack.bind fun ret =>
        .pure (⟨xid, ret⟩ : ReplyHeader)
      obtain ⟨hbuf, -, -⟩ := hfields.header (by decide) header
      exact Unmarshall.inBounds_takeIn (by rw [hbuf]; exact size) ok
  | @content memory s size =>
      refine ⟨?_, ?_⟩
      · simpa [Unmarshall.takeContent] using size
      · simp [Unmarshall.takeContent]

/-- **Decoding stays in bounds.**  After any reads of any types behind an accepted header the
    position lies in the buffer, a flag that has been cleared stays so, and a string is read from
    the buffer or refused exactly if the end that it declares is below `2 ^ 32`. -/
theorem decoding_in_bounds_iff {u : Unmarshall} (h : reader.Reach anyStep u) :
    u.ind ≤ u.buf.length ∧
      (∀ {α : Type} {c : Codec α}, Marshallable c → ∀ old,
        reader.Reach anyStep (c.get old u).2 ∧ (u.ok = false → (c.get old u).2.ok = false)) ∧
      ∀ old, u.ReadsString old ↔ u.EndFits := by
  obtain ⟨start, haccepted, hrun⟩ := h
  have hu : u.InBounds :=
    reader_keeps keeps_inBounds_rawbyte keeps_inBounds_rawbytes hrun haccepted.inBounds
  refine ⟨hu.ind_le, ?_, hu.readsString_iff⟩
  intro α c hc old
  have hsteps := hc.stepwise old u
  refine ⟨⟨start, haccepted, hrun.trans hsteps⟩, ?_⟩
  exact reader_keeps keeps_ok_rawbyte keeps_ok_rawbytes hsteps

/-- A string of one byte, read from the content of a string. -/
theorem decoding_in_bounds_one_byte :
    (Unmarshall.takeContent (fun _ => 0) [0, 0, 0, 1, 97]).EndFits ∧
      (Unmarshall.takeContent (fun _ => 0) [0, 0, 0, 1, 97]).ReadsString [] := by
  have hfits : (Unmarshall.takeContent (fun _ => 0) [0, 0, 0, 1, 97]).EndFits := by
    unfold Unmarshall.EndFits
    decide
  exact ⟨hfits, ((decoding_in_bounds_iff (.init (.content _ (by decide)))).2.2 []).mpr hfits⟩

/-- A request whose first argument is a string that declares `2 ^ 32 - 28` bytes. -/
def wrappingRequest : List UInt8 := List.replicate 24 0 ++ [255, 255, 255, 228]

/-- The length field ends at position 28, with the buffer.  The computed end is 0, and the string
    is taken. -/
theorem string_end_wraps_around :
    ¬ ∀ u, reader.Reach anyStep u → ∀ old, u.ReadsString old := by
  intro hclaim
  have hreach : reader.Reach anyStep (unpackReqHeader (.ofBuf wrappingRequest)).2 :=
    .init (.request (by decide) (by decide))
  have hlength : ¬ (unpackReqHeader (.ofBuf wrappingRequest)).2.declared.2.ind +
      (unpackReqHeader (.ofBuf wrappingRequest)).2.declared.1.toNat ≤
        (unpackReqHeader (.ofBuf wrappingRequest)).2.declared.2.buf.length := by
    decide +kernel
  have hok : (Codec.string.get [] (unpackReqHeader (.ofBuf wrappingRequest)).2).2.ok = true := by
    decide +kernel
  rcases hclaim _ hreach [] with ⟨-, hle, -⟩ | ⟨hrefused, -⟩
  · exact hlength hle
  · rw [hok] at hrefused
    cases hrefused

end DistributedLab.Wire

namespace DistributedLab.Channel

open Transition Wire
open BigEndian (sizeT sizeT_natCast)

/-! ## 2. Reading a PDU

`readpdu` calls `read` at most twice: for the four bytes of the size, and for what follows
into the buffer that it has allocated.  The buffer has room for the size and four more
bytes. -/

/-- The size that `readpdu` finds in the stream. -/
def sizePrefix (w : Charbuf) (wire : List UInt8) (size : Received) : Option Int :=
  if w.sz = 0 ∧ (read wire 4 size).n = 4 then some (ntohl (read wire 4 size).got) else none

/-- `rpdu_` when the second `read` is called; `none` if `readpdu` returns before. -/
def atBody (w : Charbuf) (wire : List UInt8) (size : Received) : Option Charbuf :=
  if w.sz = 0 then
    if (read wire 4 size).n = 4 ∧ ¬ ntohl (read wire 4 size).got > maxPdu ∧ w.buf = none ∧
        mallocs (sizeT (ntohl (read wire 4 size).got + 4)) = true then
      some ⟨some (read wire 4 size).got, ntohl (read wire 4 size).got, 4⟩
    else none
  else some w

/-- The number of bytes that are allocated for a PDU. -/
def allocated (w : Charbuf) : Nat := sizeT (w.sz + 4)

/-- A call of `readpdu` comes to the second `read`, or fails and leaves `rpdu_` as it is. -/
theorem readpdu_at_body {w : Charbuf} {wire : List UInt8} {size body : Received}
    {out : Bool × Charbuf × List UInt8} (h : readpdu w wire size body = some out) :
    (∃ b rest, atBody w wire size = some b ∧ out = readBody b rest body) ∨
      (atBody w wire size = none ∧ out.1 = false ∧ out.2.1 = w) := by
  unfold readpdu at h
  unfold atBody
  by_cases hsz : w.sz = 0
  swap
  · rw [if_neg hsz] at h ⊢
    exact .inl ⟨w, wire, rfl, (Option.some.inj h).symm⟩
  rw [if_pos hsz] at h ⊢
  dsimp only at h
  by_cases hfour : (read wire 4 size).n = 4
  · have hzero : ¬ (read wire 4 size).n = 0 := by omega
    have hneg : ¬ (read wire 4 size).n < 0 := by omega
    rw [if_neg hzero, if_neg hneg, if_neg (not_not_intro hfour)] at h
    split_ifs at h with hmax hbuf hnull
    · cases h
      exact .inr ⟨if_neg fun hbody => hbody.2.1 hmax, rfl, rfl⟩
    · exact .inl ⟨_, _, if_pos ⟨hfour, hmax, not_not.mp hbuf, Bool.eq_true_of_not_eq_false hnull⟩,
        (Option.some.inj h).symm⟩
  · right
    rw [if_neg fun hbody => hfour hbody.1]
    split_ifs at h <;> cases h <;> exact ⟨rfl, rfl, rfl⟩

/-- What a call of `readpdu` should keep: the counters of a buffer that stays, the room for the
    bytes that are asked for, and that a size out of range is refused before anything is
    allocated. -/
structure ReadInBounds (w : Charbuf) (wire : List UInt8) (size : Received)
    (out : Bool × Charbuf × List UInt8) : Prop where
  counters : out.2.1.buf ≠ none →
    4 ≤ out.2.1.solong ∧ out.2.1.solong ≤ out.2.1.sz ∧ out.2.1.sz ≤ maxPdu
  request : ∀ b ∈ atBody w wire size,
    0 ≤ b.sz - b.solong ∧ b.solong + sizeT (b.sz - b.solong) ≤ allocated b
  refused : ∀ p ∈ sizePrefix w wire size, ¬ (4 ≤ p ∧ p ≤ maxPdu) →
    out.1 = false ∧ atBody w wire size = none

/-- `rpdu_` is free, or its counters are in range. -/
inductive Charbuf.Filling : Charbuf → Prop
  | idle : Filling .empty
  | busy {b : List UInt8} {sz solong : Int} (hfour : 4 ≤ solong) (hle : solong ≤ sz)
      (hmax : sz ≤ maxPdu) : Filling ⟨some b, sz, solong⟩

theorem sizeT_of_nonneg {k : Int} (hnonneg : 0 ≤ k) (hle : k ≤ maxPdu + 4) :
    (sizeT k : Int) = k := by
  obtain ⟨n, rfl⟩ := Int.eq_ofNat_of_zero_le hnonneg
  have hmax : maxPdu = 10485760 := rfl
  rw [sizeT_natCast (by omega)]

theorem readBody_filling {b : List UInt8} {sz solong : Int} (hfour : 4 ≤ solong)
    (hle : solong ≤ sz) (hmax : sz ≤ maxPdu) (wire : List UInt8) (r : Received) :
    (readBody ⟨some b, sz, solong⟩ wire r).2.1.Filling := by
  have hwant : (sizeT (sz - solong) : Int) = sz - solong :=
    sizeT_of_nonneg (by omega) (by omega)
  have hgot := length_got_le wire (sizeT (sz - solong)) r
  unfold readBody
  dsimp only
  split_ifs with hnone hagain
  · exact .busy hfour hle hmax
  · exact .idle
  · have hn := n_eq_length_got (Int.not_le.mp hnone)
    exact .busy (by omega) (by omega) hmax

section Call

variable {w : Charbuf} {wire : List UInt8} {size body : Received}
  {out : Bool × Charbuf × List UInt8}

/-- A size is read only into a free `rpdu_`, and is not above `MAX_PDU` if the call goes on. -/
theorem atBody_of_sizePrefix (h : w.Filling) {p : Int} (hp : sizePrefix w wire size = some p) :
    atBody w wire size =
      if p > maxPdu ∨ mallocs (sizeT (p + 4)) = false then none
      else some ⟨some (read wire 4 size).got, p, 4⟩ := by
  unfold sizePrefix at hp
  split_ifs at hp with hread
  cases hp
  cases h with
  | idle =>
      by_cases hmax : ntohl (read wire 4 size).got > maxPdu
      · simp [atBody, Charbuf.empty, hread.2, hmax]
      · cases hnull : mallocs (sizeT (ntohl (read wire 4 size).got + 4)) <;>
          simp [atBody, Charbuf.empty, hread.2, hmax, hnull]
  | busy hfour hle hmax =>
      have hzero : _ = (0 : Int) := hread.1
      dsimp only at hzero
      omega

theorem Charbuf.Filling.at_body (h : w.Filling) (hsize : ∀ p ∈ sizePrefix w wire size, 4 ≤ p)
    {b : Charbuf} (hb : atBody w wire size = some b) :
    ∃ bytes sz solong, b = ⟨some bytes, sz, solong⟩ ∧ 4 ≤ solong ∧ solong ≤ sz ∧ sz ≤ maxPdu := by
  rcases hp : sizePrefix w wire size with _ | p
  · cases h with
    | idle =>
        unfold sizePrefix at hp
        unfold atBody at hb
        simp only [Charbuf.empty, true_and, if_true] at hp hb
        split_ifs at hp hb with hfour hbody
        exact absurd hbody.1 hfour
    | @busy bytes sz solong hfour hle hmax =>
        have hzero : ¬ sz = 0 := by omega
        unfold atBody at hb
        rw [if_neg hzero] at hb
        cases hb
        exact ⟨bytes, sz, solong, rfl, hfour, hle, hmax⟩
  · have hle := hsize p hp
    rw [atBody_of_sizePrefix h hp] at hb
    split_ifs at hb with hmax
    cases hb
    exact ⟨_, p, 4, rfl, Int.le_refl 4, hle, Int.not_lt.mp (not_or.mp hmax).1⟩

/-- The process goes on, so `malloc` has given a buffer for the size. -/
theorem mallocs_of_readpdu (h : w.Filling) (hread : readpdu w wire size body = some out) {p : Int}
    (hp : sizePrefix w wire size = some p) (hmax : p ≤ maxPdu) :
    mallocs (sizeT (p + 4)) = true := by
  unfold sizePrefix at hp
  split_ifs at hp with hfour
  cases hp
  cases h with
  | idle =>
      have hbuf : ¬ Charbuf.empty.buf ≠ none := fun hne => hne rfl
      by_contra hnull
      simp [readpdu, hfour.1, hfour.2, Int.not_lt.mpr hmax, hbuf,
        Bool.eq_false_of_not_eq_true hnull] at hread
  | busy hlow hle =>
      have hzero : _ = (0 : Int) := hfour.1
      dsimp only at hzero
      omega

theorem Charbuf.Filling.readpdu (h : w.Filling) (hsize : ∀ p ∈ sizePrefix w wire size, 4 ≤ p)
    (hread : readpdu w wire size body = some out) : out.2.1.Filling := by
  rcases readpdu_at_body hread with ⟨b, rest, hb, rfl⟩ | ⟨-, -, hkept⟩
  · obtain ⟨bytes, sz, solong, rfl, hfour, hle, hmax⟩ := h.at_body hsize hb
    exact readBody_filling hfour hle hmax rest body
  · rw [hkept]
    exact h

/-- **The bounds of one call**: they hold exactly if the size that is read covers itself. -/
theorem Charbuf.Filling.readInBounds_iff (h : w.Filling)
    (hread : Channel.readpdu w wire size body = some out) :
    ReadInBounds w wire size out ↔ ∀ p ∈ sizePrefix w wire size, 4 ≤ p := by
  constructor
  · intro hbounds p hp
    by_contra hlt
    have hnone := (hbounds.refused p hp fun hrange => hlt hrange.1).2
    have hmax : ¬ p > maxPdu := by
      have hmax : maxPdu = 10485760 := rfl
      omega
    have hmallocs := mallocs_of_readpdu h hread hp (Int.not_lt.mp hmax)
    rw [atBody_of_sizePrefix h hp, if_neg (by simp [hmax, hmallocs])] at hnone
    cases hnone
  · intro hsize
    constructor
    · intro hbuf
      have hfilling := h.readpdu hsize hread
      generalize out.2.1 = w' at hbuf hfilling
      cases hfilling with
      | idle => exact absurd rfl hbuf
      | busy hfour hle hmax => exact ⟨hfour, hle, hmax⟩
    · intro b hb
      obtain ⟨bytes, sz, solong, rfl, hfour, hle, hmax⟩ := h.at_body hsize hb
      have hwant : (sizeT (sz - solong) : Int) = sz - solong :=
        sizeT_of_nonneg (by omega) (by omega)
      have hroom : (sizeT (sz + 4) : Int) = sz + 4 := sizeT_of_nonneg (by omega) (by omega)
      refine ⟨Int.sub_nonneg_of_le hle, ?_⟩
      show solong + sizeT (sz - solong) ≤ sizeT (sz + 4)
      omega
    · intro p hp hrange
      have hle := hsize p hp
      have hnone : atBody w wire size = none := by
        rw [atBody_of_sizePrefix h hp, if_pos (.inl (by omega))]
      rcases readpdu_at_body hread with ⟨b, rest, hb, -⟩ | ⟨-, hfails, -⟩
      · rw [hnone] at hb
        cases hb
      · exact ⟨hfails, hnone⟩

end Call

/-! ### Any peer

What stands in the stream at a call of `read_cb` is up to the peer. -/

structure Arrival where
  wire : List UInt8
  size : Received
  body : Received
  takes : Bool
deriving DecidableEq, Repr

def receiver : System Link Arrival where
  init s := s = .new
  step s a := ({ s with wire := a.wire } : Link).readCb a.size a.body a.takes

/-- A size that is read covers at least itself. -/
def Prefixed (s : Link) (a : Arrival) : Prop :=
  s.receiverDead = false → ∀ p ∈ sizePrefix s.rpdu a.wire a.size, 4 ≤ p

theorem Link.filling_deliver {s : Link} (h : s.rpdu.Filling) (takes : Bool) :
    (s.deliver takes).rpdu.Filling := by
  unfold Link.deliver
  split
  · exact h
  · split_ifs
    · exact .idle
    · exact h

theorem Link.filling_readCb {s next : Link} {size body : Received} {takes : Bool}
    (h : s.rpdu.Filling)
    (hsize : s.receiverDead = false → ∀ p ∈ sizePrefix s.rpdu s.wire size, 4 ≤ p)
    (hstep : s.readCb size body takes = some next) : next.rpdu.Filling := by
  unfold Link.readCb at hstep
  split_ifs at hstep with hdead hneeds
  · cases hstep
    exact h
  · obtain ⟨out, hread, rfl⟩ := Option.map_eq_some_iff.mp hstep
    apply Link.filling_deliver
    exact h.readpdu (hsize (by simpa using hdead)) hread
  · cases hstep
    exact Link.filling_deliver h takes

/-- **The reader of PDUs stays in bounds.**  In every run in which the sizes that were read cover
    themselves, the next call stays in bounds exactly if its size does so too. -/
theorem readpdu_in_bounds_iff {s : Link} (h : receiver.Reach Prefixed s) {wire : List UInt8}
    {size body : Received} {out : Bool × Charbuf × List UInt8}
    (hread : readpdu s.rpdu wire size body = some out) :
    ReadInBounds s.rpdu wire size out ↔ ∀ p ∈ sizePrefix s.rpdu wire size, 4 ≤ p := by
  have hfilling : s.rpdu.Filling := by
    apply h.invariant (P := fun s => s.rpdu.Filling)
    · rintro start rfl
      exact .idle
    · intro state next a hstate hguard hstep
      refine Link.filling_readCb ?_ ?_ hstep
      · exact hstate
      · exact hguard
  exact hfilling.readInBounds_iff hread

/-- A PDU of 30 bytes of which the first 10 have arrived. -/
theorem readpdu_in_bounds_thirty :
    ReadInBounds .empty ([0, 0, 0, 30] ++ List.replicate 6 1) (.bytes 4)
      (true, ⟨some ([0, 0, 0, 30] ++ List.replicate 6 1), 30, 10⟩, []) :=
  (readpdu_in_bounds_iff (.init (rfl : Link.new = .new))
    (rfl : readpdu .empty ([0, 0, 0, 30] ++ List.replicate 6 1) (.bytes 4) (.bytes 6) = _)).mpr
      (by decide)

/-- The size 3: it is accepted, and the second `read` is asked for all that fits into a
    `size_t`, which the kernel refuses. -/
theorem size_below_four_is_accepted :
    ¬ ∀ s, receiver.Reach anyStep s → ∀ wire size body out,
      readpdu s.rpdu wire size body = some out → ReadInBounds s.rpdu wire size out := by
  intro hclaim
  have hbounds := hclaim .new (.init rfl) [0, 0, 0, 3, 7, 7] (.bytes 4) .failed
    (false, .empty, [7, 7]) rfl
  have hnonneg := (hbounds.request ⟨some [0, 0, 0, 3], 3, 4⟩ rfl).1
  exact absurd hnonneg (by decide)

end DistributedLab.Channel
