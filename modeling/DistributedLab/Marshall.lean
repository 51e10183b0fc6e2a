import DistributedLab.BigEndian
import DistributedLab.OrderedMap
import Mathlib.Logic.Function.Basic

/-!
# Marshalling

`marshall` writes values one after the other into a buffer that it makes larger as needed,
and `unmarshall` reads them back.  Integers are written with the most significant byte
first, a string as its length and its characters, a vector or a map as its length and its
elements.  The first bytes of the buffer are left for the header of the RPC, which is
written by moving the write position back and restoring it.

A buffer is the memory from its address on.  What memory holds when it is allocated is
arbitrary.  A marshaller carries the proof that its write position lies in the allocated
part, so nothing is written beyond it.  The unmarshaller sets a flag when it is asked to
read past the end of its buffer, and goes on.
-/

namespace DistributedLab.Wire

/-! ### The writer -/

/-- `DEFAULT_RPC_SZ`. -/
def defaultRpcSz : Nat := 1024

/-- `sizeof(rpc_sz_t)`, the bytes that the channel fills with the size of the PDU. -/
def rpcSzSize : Nat := 4

/-- `RPC_HEADER_SZ`, for a request header of five ints and a reply header of two. -/
def rpcHeaderSz : Nat := max 20 8 + rpcSzSize

/-- `MAX_PDU`. -/
def maxPdu : Nat := 10 <<< 20

structure Marshall where
  buf : Nat → UInt8
  capa : Nat
  ind : Nat
  default_le : defaultRpcSz ≤ capa
  ind_le : ind ≤ capa

def Marshall.new (memory : Nat → UInt8) : Marshall where
  buf := memory
  capa := defaultRpcSz
  ind := rpcHeaderSz
  default_le := Nat.le_refl _
  ind_le := by decide

/-- The bytes are copied to the memory from position `k` on. -/
def overwrite (buf : Nat → UInt8) (k : Nat) (bytes : List UInt8) : Nat → UInt8 := fun i =>
  if i < k then buf i else bytes.getD (i - k) (buf i)

def Marshall.rawbyte (m : Marshall) (x : UInt8) : Marshall where
  buf := Function.update m.buf m.ind x
  capa := if m.ind ≥ m.capa then m.capa * 2 else m.capa
  ind := m.ind + 1
  default_le := by
    have := m.default_le
    split <;> omega
  ind_le := by
    have := m.default_le
    have := m.ind_le
    unfold defaultRpcSz at *
    split <;> omega

def Marshall.rawbytes (m : Marshall) (p : List UInt8) : Marshall where
  buf := overwrite m.buf m.ind p
  capa :=
    if m.ind + p.length > m.capa then
      if m.capa > p.length then 2 * m.capa else m.capa + p.length
    else m.capa
  ind := m.ind + p.length
  default_le := by
    have := m.default_le
    split_ifs <;> omega
  ind_le := by
    have := m.ind_le
    split_ifs <;> omega

/-- The write position is moved. -/
def Marshall.seek (m : Marshall) (k : Nat) (hk : k ≤ m.capa) : Marshall :=
  { m with ind := k, ind_le := hk }

/-- What `take_buf` hands over. -/
def Marshall.takeBuf (m : Marshall) : List UInt8 := (List.range m.ind).map m.buf

/-- What follows the header. -/
def Marshall.getContent (m : Marshall) : List UInt8 := m.takeBuf.drop rpcHeaderSz

/-! ### The reader -/

/-- `_sz` is the length of the buffer. -/
structure Unmarshall where
  buf : List UInt8
  ind : Nat
  ok : Bool
deriving DecidableEq

def Unmarshall.ofBuf (buf : List UInt8) : Unmarshall := ⟨buf, 0, true⟩

/-- `take_content`: memory for a header, followed by the content. -/
def Unmarshall.takeContent (memory : Nat → UInt8) (content : List UInt8) : Unmarshall :=
  ⟨(List.range rpcHeaderSz).map memory ++ content, rpcHeaderSz, true⟩

def Unmarshall.okdone (u : Unmarshall) : Bool := u.ok && u.ind == u.buf.length

/-- The byte is a `char`, so it is widened with its sign. -/
def rawbyte : StateM Unmarshall UInt32 := fun u =>
  match u.buf[u.ind]? with
  | none => (0, { u with ok := false })
  | some c => (c.toInt8.toInt32.toUInt32, { u with ind := u.ind + 1 })

/-- The sum is computed as an `unsigned`, in the test and in the new position.  If it wraps
    around, the source copies what lies behind the buffer; the string here ends with it. -/
def rawbytes (s : List UInt8) (n : UInt32) : StateM Unmarshall (List UInt8) := fun u =>
  if UInt32.ofNat u.ind + n > UInt32.ofNat u.buf.length then (s, { u with ok := false })
  else ((u.buf.drop u.ind).take n.toNat, { u with ind := (UInt32.ofNat u.ind + n).toNat })

/-! ### Operators -/

/-- The operators `<<` and `>>` of a type.  `>>` is given what the variable holds that is read
    into, and `fresh` is what a variable of the type holds that has no initialiser; for the
    integer types that is arbitrary and never read. -/
structure Codec (α : Type) where
  put : α → Marshall → Marshall
  get : α → StateM Unmarshall α
  fresh : α

def Codec.bool : Codec Bool where
  put x m := m.rawbyte (if x then 1 else 0)
  get _ := do
    let c ← rawbyte
    pure (c != 0)
  fresh := false

def Codec.unsignedChar : Codec UInt8 where
  put x m := m.rawbyte x
  get _ := do
    let c ← rawbyte
    pure c.toUInt8
  fresh := 0

def Codec.char : Codec Int8 where
  put x := unsignedChar.put x.toUInt8
  get _ := do
    let c ← rawbyte
    pure c.toUInt8.toInt8
  fresh := 0

def Codec.unsignedShort : Codec UInt16 where
  put x m := (m.rawbyte ((x >>> 8) &&& 0xff).toUInt8).rawbyte (x &&& 0xff).toUInt8
  get _ := do
    let a ← rawbyte
    let x := ((a &&& 0xff) <<< 8).toUInt16
    let b ← rawbyte
    pure (x.toUInt32 ||| (b &&& 0xff)).toUInt16
  fresh := 0

def Codec.short : Codec Int16 where
  put x := unsignedShort.put x.toUInt16
  get _ := do
    let a ← rawbyte
    let x := ((a &&& 0xff) <<< 8).toUInt16.toInt16
    let b ← rawbyte
    pure (x.toInt32.toUInt32 ||| (b &&& 0xff)).toUInt16.toInt16
  fresh := 0

def Codec.unsignedInt : Codec UInt32 where
  put x m := (((m.rawbyte ((x >>> 24) &&& 0xff).toUInt8).rawbyte
    ((x >>> 16) &&& 0xff).toUInt8).rawbyte ((x >>> 8) &&& 0xff).toUInt8).rawbyte
      (x &&& 0xff).toUInt8
  get _ := do
    let a ← rawbyte
    let x := (a &&& 0xff) <<< 24
    let b ← rawbyte
    let x := x ||| (b &&& 0xff) <<< 16
    let c ← rawbyte
    let x := x ||| (c &&& 0xff) <<< 8
    let d ← rawbyte
    pure (x ||| (d &&& 0xff))
  fresh := 0

/-- Each `|=` converts the sum of bits back to an `int`. -/
def unpack : StateM Unmarshall Int32 := do
  let a ← rawbyte
  let x := ((a &&& 0xff) <<< 24).toInt32
  let b ← rawbyte
  let x := (x.toUInt32 ||| (b &&& 0xff) <<< 16).toInt32
  let c ← rawbyte
  let x := (x.toUInt32 ||| (c &&& 0xff) <<< 8).toInt32
  let d ← rawbyte
  pure (x.toUInt32 ||| (d &&& 0xff)).toInt32

def Codec.int : Codec Int32 where
  put x := unsignedInt.put x.toUInt32
  get _ := unpack
  fresh := 0

def Codec.unsignedLongLong : Codec UInt64 where
  put x m := unsignedInt.put x.toUInt32 (unsignedInt.put (x >>> 32).toUInt32 m)
  get _ := do
    let h ← unsignedInt.get unsignedInt.fresh
    let l ← unsignedInt.get unsignedInt.fresh
    pure (l.toUInt64 ||| h.toUInt64 <<< 32)
  fresh := 0

/-- A string that cannot be read keeps what it held. -/
def Codec.string : Codec (List UInt8) where
  put s m := (unsignedInt.put (UInt32.ofNat s.length) m).rawbytes s
  get s := do
    let sz ← unsignedInt.get unsignedInt.fresh
    let u ← getThe Unmarshall
    if u.ok then rawbytes s sz else pure s
  fresh := []

/-- `push_back` of `n` elements. -/
def getElements {α : Type} (c : Codec α) : Nat → List α → StateM Unmarshall (List α)
  | 0, v => pure v
  | n + 1, v => do
      let z ← c.get c.fresh
      getElements c n (v ++ [z])

def Codec.vector {α : Type} (c : Codec α) : Codec (List α) where
  put v m := v.foldl (fun m x => c.put x m) (unsignedInt.put (UInt32.ofNat v.length) m)
  get _ := do
    let n ← unsignedInt.get unsignedInt.fresh
    getElements c n.toNat []
  fresh := []

section Map

variable {α β : Type} [Ord α] [Std.TransOrd α] [Std.LawfulEqOrd α]

def getEntries (c : Codec α) (d : Codec β) :
    Nat → OrderedMap α β → StateM Unmarshall (OrderedMap α β)
  | 0, entries => pure entries
  | n + 1, entries => do
      let a ← c.get c.fresh
      let b ← d.get d.fresh
      getEntries c d n (entries.insert a b)

def Codec.map (c : Codec α) (d : Codec β) : Codec (OrderedMap α β) where
  put entries m := entries.entries.foldl (fun m entry => d.put entry.2 (c.put entry.1 m))
    (unsignedInt.put (UInt32.ofNat entries.size) m)
  get _ := do
    let n ← unsignedInt.get unsignedInt.fresh
    getEntries c d n.toNat .empty
  fresh := .empty

end Map

/-! ### Headers -/

structure ReqHeader where
  xid : Int32
  proc : Int32
  cltNonce : UInt32
  srvNonce : UInt32
  xidRep : Int32
deriving DecidableEq

structure ReplyHeader where
  xid : Int32
  ret : Int32
deriving DecidableEq

/-- The shifts are those of an `int`. -/
def Marshall.pack (m : Marshall) (x : Int32) : Marshall :=
  (((m.rawbyte ((x >>> 24) &&& 0xff).toUInt32.toUInt8).rawbyte
    ((x >>> 16) &&& 0xff).toUInt32.toUInt8).rawbyte
      ((x >>> 8) &&& 0xff).toUInt32.toUInt8).rawbyte (x &&& 0xff).toUInt32.toUInt8

theorem Marshall.capa_le_rawbyte (m : Marshall) (x : UInt8) : m.capa ≤ (m.rawbyte x).capa := by
  unfold Marshall.rawbyte
  dsimp only
  split <;> omega

theorem Marshall.capa_le_pack (m : Marshall) (x : Int32) : m.capa ≤ (m.pack x).capa :=
  (m.capa_le_rawbyte _).trans ((capa_le_rawbyte _ _).trans
    ((capa_le_rawbyte _ _).trans (capa_le_rawbyte _ _)))

theorem Marshall.capa_le_packAll (m : Marshall) (xs : List Int32) :
    m.capa ≤ (xs.foldl pack m).capa := by
  induction xs generalizing m with
  | nil => exact Nat.le_refl _
  | cons x xs ih => exact (m.capa_le_pack x).trans (ih (m.pack x))

/-- The ints of a header are packed behind the size of the PDU, and the write position is
    restored. -/
def Marshall.packHeader (m : Marshall) (xs : List Int32) : Marshall :=
  have hstart : rpcSzSize ≤ m.capa := (by decide : rpcSzSize ≤ defaultRpcSz).trans m.default_le
  (xs.foldl pack (m.seek rpcSzSize hstart)).seek m.ind
    (m.ind_le.trans (capa_le_packAll (m.seek rpcSzSize hstart) xs))

def Marshall.packReqHeader (m : Marshall) (h : ReqHeader) : Marshall :=
  m.packHeader [h.xid, h.proc, h.cltNonce.toInt32, h.srvNonce.toInt32, h.xidRep]

def Marshall.packReplyHeader (m : Marshall) (h : ReplyHeader) : Marshall :=
  m.packHeader [h.xid, h.ret]

/-- The fields stand behind the size of the PDU; reading goes on behind the header. -/
def unpackHeader {α : Type} (fields : StateM Unmarshall α) : StateM Unmarshall α := do
  modify fun u => { u with ind := rpcSzSize }
  let h ← fields
  modify fun u => { u with ind := rpcHeaderSz }
  pure h

def unpackReqHeader : StateM Unmarshall ReqHeader := unpackHeader do
  let xid ← unpack
  let proc ← unpack
  let cltNonce ← unpack
  let srvNonce ← unpack
  let xidRep ← unpack
  pure ⟨xid, proc, cltNonce.toUInt32, srvNonce.toUInt32, xidRep⟩

def unpackReplyHeader : StateM Unmarshall ReplyHeader := unpackHeader do
  let xid ← unpack
  let ret ← unpack
  pure ⟨xid, ret⟩

/-! ### What the writers write -/

theorem overwrite_nil (buf : Nat → UInt8) (k : Nat) : overwrite buf k [] = buf := by
  funext i
  simp [overwrite]

theorem overwrite_append (buf : Nat → UInt8) (k : Nat) (bytes more : List UInt8) :
    overwrite (overwrite buf k bytes) (k + bytes.length) more = overwrite buf k (bytes ++ more) := by
  funext i
  unfold overwrite
  by_cases hk : i < k
  · have hend : i < k + bytes.length := by omega
    rw [if_pos hend, if_pos hk, if_pos hk]
  · rw [if_neg hk, if_neg hk]
    by_cases hend : i < k + bytes.length
    · have hin : i - k < bytes.length := by omega
      rw [if_pos hend, List.getD_append _ _ _ _ hin]
    · have hout : bytes.length ≤ i - k := by omega
      rw [if_neg hend, List.getD_append_right _ _ _ _ hout, List.getD_eq_default _ _ hout,
        Nat.sub_sub]

theorem update_eq_overwrite (buf : Nat → UInt8) (k : Nat) (x : UInt8) :
    Function.update buf k x = overwrite buf k [x] := by
  funext i
  unfold overwrite
  by_cases hlt : i < k
  · rw [Function.update_of_ne (by omega), if_pos hlt]
  · rw [if_neg hlt]
    by_cases heq : i = k
    · subst heq
      simp
    · have hlen : [x].length ≤ i - k := by
        simp only [List.length_singleton]
        omega
      rw [Function.update_of_ne heq, List.getD_eq_default _ _ hlen]

theorem overwrite_of_lt {buf : Nat → UInt8} {k i : Nat} {bytes : List UInt8} (h : i < k) :
    overwrite buf k bytes i = buf i := if_pos h

theorem overwrite_add {buf : Nat → UInt8} {k i : Nat} {bytes : List UInt8}
    (h : i < bytes.length) : overwrite buf k bytes (k + i) = bytes[i] := by
  unfold overwrite
  rw [if_neg (by omega), Nat.add_sub_cancel_left, List.getD_eq_getElem _ _ h]

theorem overwrite_congr {buf buf' : Nat → UInt8} {k i : Nat} {bytes : List UInt8}
    (h : buf i = buf' i) : overwrite buf k bytes i = overwrite buf' k bytes i := by
  simp only [overwrite, h]

theorem overwrite_of_le {buf : Nat → UInt8} {k i : Nat} {bytes : List UInt8}
    (h : k + bytes.length ≤ i) : overwrite buf k bytes i = buf i := by
  unfold overwrite
  rw [if_neg (by omega), List.getD_eq_default _ _ (by omega)]

/-- `f` appends the bytes.  The buffer is at most doubled for what is written, so that no
    position leaves the range of an `int` before the buffer has a gigabyte. -/
structure Writes (f : Marshall → Marshall) (bytes : List UInt8) : Prop where
  buf (m : Marshall) : (f m).buf = overwrite m.buf m.ind bytes
  ind (m : Marshall) : (f m).ind = m.ind + bytes.length
  capa (m : Marshall) : (f m).capa ≤ max m.capa (2 * (m.ind + bytes.length))

theorem Writes.id : Writes (fun m => m) [] where
  buf m := (overwrite_nil m.buf m.ind).symm
  ind _ := rfl
  capa _ := Nat.le_max_left _ _

theorem Writes.comp {f g : Marshall → Marshall} {bytes more : List UInt8} (hf : Writes f bytes)
    (hg : Writes g more) : Writes (fun m => g (f m)) (bytes ++ more) where
  buf m := by rw [hg.buf, hf.buf, hf.ind, overwrite_append]
  ind m := by rw [hg.ind, hf.ind, List.length_append, Nat.add_assoc]
  capa m := by
    have hfirst := hf.capa m
    have hsecond := hg.capa (f m)
    rw [hf.ind] at hsecond
    rw [List.length_append]
    omega

theorem writes_rawbyte (x : UInt8) : Writes (fun m => m.rawbyte x) [x] where
  buf m := update_eq_overwrite m.buf m.ind x
  ind _ := rfl
  capa m := by
    unfold Marshall.rawbyte
    simp only [List.length_singleton]
    split <;> omega

theorem writes_rawbytes (p : List UInt8) : Writes (fun m => m.rawbytes p) p where
  buf _ := rfl
  ind _ := rfl
  capa m := by
    unfold Marshall.rawbytes
    dsimp only
    split_ifs <;> omega

theorem Marshall.length_takeBuf (m : Marshall) : m.takeBuf.length = m.ind := by
  simp [Marshall.takeBuf]

theorem Marshall.drop_takeBuf {m : Marshall} {k : Nat} {bytes : List UInt8}
    (hle : k + bytes.length ≤ m.ind)
    (h : ∀ (i : Nat) (hi : i < bytes.length), m.buf (k + i) = bytes[i]) :
    m.takeBuf.drop k = bytes ++ m.takeBuf.drop (k + bytes.length) := by
  rw [← List.take_append_drop bytes.length (m.takeBuf.drop k), List.drop_drop]
  congr 1
  apply List.ext_getElem
  · simp only [List.length_take, List.length_drop, m.length_takeBuf]
    omega
  · intro i hi hi'
    rw [List.getElem_take, List.getElem_drop]
    simpa [Marshall.takeBuf] using h i hi'

theorem Writes.takeBuf {f : Marshall → Marshall} {bytes : List UInt8} (h : Writes f bytes)
    (m : Marshall) : (f m).takeBuf = m.takeBuf ++ bytes := by
  unfold Marshall.takeBuf
  rw [h.ind, h.buf, List.range_add, List.map_append, List.map_map]
  congr 1
  · exact List.map_congr_left fun i hi => overwrite_of_lt (List.mem_range.mp hi)
  · apply List.ext_getElem
    · simp
    · intro i _ hi
      simpa using overwrite_add hi

theorem Writes.drop_takeBuf {f : Marshall → Marshall} {bytes : List UInt8} (h : Writes f bytes)
    (m : Marshall) : (f m).takeBuf.drop m.ind = bytes := by
  rw [h.takeBuf, ← m.length_takeBuf, List.drop_left]

theorem Writes.getContent_append {f : Marshall → Marshall} {bytes : List UInt8} (h : Writes f bytes)
    {m : Marshall} (hheader : rpcHeaderSz ≤ m.ind) :
    (f m).getContent = m.getContent ++ bytes := by
  unfold Marshall.getContent
  rw [h.takeBuf, List.drop_append_of_le_length]
  rwa [m.length_takeBuf]

/-- What is written after the space for the header is the content. -/
theorem Writes.getContent {f : Marshall → Marshall} {bytes : List UInt8} (h : Writes f bytes)
    (memory : Nat → UInt8) : (f (Marshall.new memory)).getContent = bytes :=
  h.drop_takeBuf (Marshall.new memory)

/-! ### What the readers read -/

/-- The bytes from the read position on. -/
structure Unmarshall.Holds (u : Unmarshall) (bytes : List UInt8) : Prop where
  ok : u.ok = true
  size : u.buf.length < 2 ^ 31
  ind_le : u.ind ≤ u.buf.length
  rest : u.buf.drop u.ind = bytes

def Unmarshall.skip (u : Unmarshall) (n : Nat) : Unmarshall := { u with ind := u.ind + n }

theorem Unmarshall.Holds.length_le {u : Unmarshall} {bytes more : List UInt8}
    (h : u.Holds (bytes ++ more)) : u.ind + bytes.length ≤ u.buf.length := by
  have hlength := congrArg List.length h.rest
  have hind := h.ind_le
  rw [List.length_drop, List.length_append] at hlength
  omega

theorem Unmarshall.Holds.skip {u : Unmarshall} {bytes more : List UInt8}
    (h : u.Holds (bytes ++ more)) : (u.skip bytes.length).Holds more where
  ok := h.ok
  size := h.size
  ind_le := h.length_le
  rest := by
    show u.buf.drop (u.ind + bytes.length) = more
    rw [← List.drop_drop, h.rest, List.drop_left]

theorem Unmarshall.holds_takeContent (memory : Nat → UInt8) {content : List UInt8}
    (h : rpcHeaderSz + content.length < 2 ^ 31) :
    (Unmarshall.takeContent memory content).Holds content where
  ok := rfl
  size := by simpa [Unmarshall.takeContent] using h
  ind_le := by simp [Unmarshall.takeContent]
  rest := by
    have hlength : ((List.range rpcHeaderSz).map memory).length = rpcHeaderSz := by simp
    show ((List.range rpcHeaderSz).map memory ++ content).drop rpcHeaderSz = content
    rw [List.drop_append_of_le_length (Nat.le_of_eq hlength.symm), List.drop_eq_nil_of_le,
      List.nil_append]
    exact Nat.le_of_eq hlength

/-- Where the bytes stand at the read position, `p` returns the value and consumes them. -/
def Reads {α : Type} (p : StateM Unmarshall α) (bytes : List UInt8) (v : α) : Prop :=
  ∀ (u : Unmarshall) (more : List UInt8), u.Holds (bytes ++ more) → p u = (v, u.skip bytes.length)

theorem bind_apply {α β : Type} (p : StateM Unmarshall α) (f : α → StateM Unmarshall β)
    (u : Unmarshall) : (p >>= f) u = f (p u).1 (p u).2 := rfl

theorem pure_apply {α : Type} (v : α) (u : Unmarshall) :
    (Pure.pure v : StateM Unmarshall α) u = (v, u) := rfl

theorem Reads.pure {α : Type} (v : α) : Reads (Pure.pure v) [] v := fun _ _ _ => rfl

theorem Reads.bind {α β : Type} {p : StateM Unmarshall α} {f : α → StateM Unmarshall β}
    {bytes more : List UInt8} {a : α} {b : β} (hp : Reads p bytes a) (hf : Reads (f a) more b) :
    Reads (p >>= f) (bytes ++ more) b := by
  intro u rest h
  rw [List.append_assoc] at h
  rw [bind_apply, hp u _ h]
  show f a (u.skip bytes.length) = _
  rw [hf _ _ h.skip, List.length_append, Unmarshall.skip, Unmarshall.skip, Unmarshall.skip,
    Nat.add_assoc]

theorem Reads.pure_of_eq {α : Type} {v w : α} (h : w = v) : Reads (Pure.pure w) [] v :=
  h ▸ Reads.pure w

theorem reads_rawbyte (c : UInt8) : Reads rawbyte [c] c.toInt8.toInt32.toUInt32 := by
  intro u more h
  have hbyte : u.buf[u.ind]? = some c := by
    have hhead := congrArg (·[0]?) h.rest
    simpa using hhead
  unfold rawbyte
  rw [hbyte]
  rfl

theorem Reads.rawbyte_bind {α : Type} {f : UInt32 → StateM Unmarshall α} {c : UInt8}
    {more : List UInt8} {v : α} (h : Reads (f c.toInt8.toInt32.toUInt32) more v) :
    Reads (rawbyte >>= f) (c :: more) v :=
  (reads_rawbyte c).bind h

/-! ### Operators that agree -/

/-- The value is written as these bytes and read back from them. -/
structure Codec.Carries {α : Type} (c : Codec α) (v : α) (bytes : List UInt8) : Prop where
  ne_nil : bytes ≠ []
  writes : Writes (c.put v) bytes
  reads (old : α) : Reads (c.get old) bytes v

open BigEndian

theorem Codec.carries_bool (x : Bool) : Codec.bool.Carries x [if x then 1 else 0] where
  ne_nil := by simp
  writes := writes_rawbyte _
  reads _ := by
    apply Reads.rawbyte_bind
    apply Reads.pure_of_eq
    cases x <;> rfl

theorem Codec.carries_unsignedChar (x : UInt8) : Codec.unsignedChar.Carries x [x] where
  ne_nil := by simp
  writes := writes_rawbyte x
  reads _ := by
    apply Reads.rawbyte_bind
    apply Reads.pure_of_eq
    rw [← toUInt8_and_255, signed_and_255]
    simp

theorem Codec.carries_char (x : Int8) : Codec.char.Carries x [x.toUInt8] where
  ne_nil := by simp
  writes := writes_rawbyte x.toUInt8
  reads _ := by
    apply Reads.rawbyte_bind
    apply Reads.pure_of_eq
    rw [← toUInt8_and_255, signed_and_255]
    simp

def bytes16 (x : UInt16) : List UInt8 := [(x >>> 8).toUInt8, x.toUInt8]

theorem Codec.carries_unsignedShort (x : UInt16) :
    Codec.unsignedShort.Carries x (bytes16 x) where
  ne_nil := by simp [bytes16]
  writes := by
    have hbytes : bytes16 x = [((x >>> 8) &&& 0xff).toUInt8, (x &&& 0xff).toUInt8] := by
      simp only [bytes16, toUInt8_and_255_of_short]
    rw [hbytes]
    exact (writes_rawbyte _).comp (writes_rawbyte _)
  reads _ := by
    apply Reads.rawbyte_bind
    apply Reads.rawbyte_bind
    apply Reads.pure_of_eq
    rw [signed_and_255, signed_and_255]
    exact ofBytes16 x

theorem Codec.carries_short (x : Int16) : Codec.short.Carries x (bytes16 x.toUInt16) where
  ne_nil := by simp [bytes16]
  writes := (carries_unsignedShort x.toUInt16).writes
  reads _ := by
    apply Reads.rawbyte_bind
    apply Reads.rawbyte_bind
    apply Reads.pure_of_eq
    rw [signed_and_255, signed_and_255, ofBytes16_signed, ofBytes16]
    simp

def bytes32 (x : UInt32) : List UInt8 :=
  [(x >>> 24).toUInt8, (x >>> 16).toUInt8, (x >>> 8).toUInt8, x.toUInt8]

theorem writes_four (a b c d : UInt8) :
    Writes (fun m => (((m.rawbyte a).rawbyte b).rawbyte c).rawbyte d) [a, b, c, d] :=
  (((writes_rawbyte a).comp (writes_rawbyte b)).comp (writes_rawbyte c)).comp (writes_rawbyte d)

theorem Codec.carries_unsignedInt (x : UInt32) : Codec.unsignedInt.Carries x (bytes32 x) where
  ne_nil := by simp [bytes32]
  writes := by
    have hbytes : bytes32 x = [((x >>> 24) &&& 0xff).toUInt8, ((x >>> 16) &&& 0xff).toUInt8,
        ((x >>> 8) &&& 0xff).toUInt8, (x &&& 0xff).toUInt8] := by
      simp only [bytes32, toUInt8_and_255]
    rw [hbytes]
    exact writes_four _ _ _ _
  reads _ := by
    apply Reads.rawbyte_bind
    apply Reads.rawbyte_bind
    apply Reads.rawbyte_bind
    apply Reads.rawbyte_bind
    apply Reads.pure_of_eq
    simp only [signed_and_255]
    exact ofBytes32 x

theorem reads_unpack (x : Int32) : Reads unpack (bytes32 x.toUInt32) x := by
  apply Reads.rawbyte_bind
  apply Reads.rawbyte_bind
  apply Reads.rawbyte_bind
  apply Reads.rawbyte_bind
  apply Reads.pure_of_eq
  simp only [signed_and_255, UInt32.toUInt32_toInt32]
  rw [ofBytes32]
  simp

theorem Codec.carries_int (x : Int32) : Codec.int.Carries x (bytes32 x.toUInt32) where
  ne_nil := by simp [bytes32]
  writes := (carries_unsignedInt x.toUInt32).writes
  reads _ := reads_unpack x

theorem bytes32_toUInt32 (x : Int32) : bytes32 x.toUInt32 =
    [((x >>> 24) &&& 0xff).toUInt32.toUInt8, ((x >>> 16) &&& 0xff).toUInt32.toUInt8,
      ((x >>> 8) &&& 0xff).toUInt32.toUInt8, (x &&& 0xff).toUInt32.toUInt8] := by
  have h24 : (x.toUInt32 >>> 24).toUInt8 = ((x >>> 24) &&& 0xff).toUInt32.toUInt8 :=
    UInt8.toBitVec_inj.mp (setWidth_sshiftRight x.toBitVec (by decide : 24 ≤ 24)).symm
  have h16 : (x.toUInt32 >>> 16).toUInt8 = ((x >>> 16) &&& 0xff).toUInt32.toUInt8 :=
    UInt8.toBitVec_inj.mp (setWidth_sshiftRight x.toBitVec (by decide : 16 ≤ 24)).symm
  have h8 : (x.toUInt32 >>> 8).toUInt8 = ((x >>> 8) &&& 0xff).toUInt32.toUInt8 :=
    UInt8.toBitVec_inj.mp (setWidth_sshiftRight x.toBitVec (by decide : 8 ≤ 24)).symm
  have h0 : x.toUInt32.toUInt8 = (x &&& 0xff).toUInt32.toUInt8 :=
    (toUInt8_and_255 x.toUInt32).symm
  rw [bytes32, h24, h16, h8, h0]

theorem writes_pack (x : Int32) : Writes (fun m => m.pack x) (bytes32 x.toUInt32) := by
  rw [bytes32_toUInt32]
  exact writes_four _ _ _ _

theorem Codec.carries_unsignedLongLong (x : UInt64) :
    Codec.unsignedLongLong.Carries x (bytes32 (x >>> 32).toUInt32 ++ bytes32 x.toUInt32) where
  ne_nil := by simp [bytes32]
  writes := (carries_unsignedInt _).writes.comp (carries_unsignedInt _).writes
  reads _ := by
    refine ((carries_unsignedInt _).reads _).bind ?_
    rw [← List.append_nil (bytes32 x.toUInt32)]
    refine ((carries_unsignedInt _).reads _).bind ?_
    apply Reads.pure_of_eq
    rw [UInt64.or_comm]
    exact ofHalves64 x

/-! ### Strings, vectors and maps -/

theorem toNat_ofNat_of_int {n : Nat} (h : n < 2 ^ 31) : (UInt32.ofNat n).toNat = n :=
  UInt32.toNat_ofNat_of_lt' (Nat.lt_trans h (by decide))

theorem reads_rawbytes (old s : List UInt8) : Reads (rawbytes old (UInt32.ofNat s.length)) s s := by
  intro u more h
  have hlength := h.length_le
  have hsize := h.size
  have hn : (UInt32.ofNat s.length).toNat = s.length := toNat_ofNat_of_int (by omega)
  have hsum : (UInt32.ofNat u.ind + UInt32.ofNat s.length).toNat = u.ind + s.length := by
    rw [UInt32.toNat_add, hn, toNat_ofNat_of_int (by omega)]
    omega
  have hfits : ¬ UInt32.ofNat u.ind + UInt32.ofNat s.length > UInt32.ofNat u.buf.length := by
    rw [gt_iff_lt, UInt32.lt_iff_toNat_lt, hsum, toNat_ofNat_of_int (by omega)]
    omega
  unfold rawbytes
  rw [if_neg hfits, hsum, hn, h.rest, List.take_left]
  rfl

theorem Codec.carries_string (s : List UInt8) :
    Codec.string.Carries s (bytes32 (UInt32.ofNat s.length) ++ s) where
  ne_nil := by simp [bytes32]
  writes := (carries_unsignedInt _).writes.comp (writes_rawbytes s)
  reads old := by
    refine ((carries_unsignedInt _).reads _).bind ?_
    intro u more h
    show (if u.ok then rawbytes old _ else pure old) u = _
    rw [if_pos h.ok]
    exact reads_rawbytes old s u more h

/-- A count that is written before the counted bytes has not been truncated. -/
theorem Reads.count_bind {α : Type} {f : Nat → StateM Unmarshall α} {n : Nat}
    {bytes : List UInt8} {v : α} (hle : n ≤ bytes.length) (h : Reads (f n) bytes v) :
    Reads (Codec.unsignedInt.get Codec.unsignedInt.fresh >>= fun k => f k.toNat)
      (bytes32 (UInt32.ofNat n) ++ bytes) v := by
  refine ((Codec.carries_unsignedInt _).reads _).bind ?_
  intro u more hu
  have hlength := hu.length_le
  have hsize := hu.size
  rw [toNat_ofNat_of_int (by omega : n < 2 ^ 31)]
  exact h u more hu

theorem Reads.counted {α β : Type} {g : α → StateM Unmarshall β} (f : Nat → StateM Unmarshall α)
    {n : Nat} {bytes more : List UInt8} {a : α} {b : β} (hle : n ≤ bytes.length)
    (hf : Reads (f n) bytes a) (hg : Reads (g a) more b) :
    Reads (Codec.unsignedInt.get Codec.unsignedInt.fresh >>= fun k => f k.toNat >>= g)
      (bytes32 (UInt32.ofNat n) ++ (bytes ++ more)) b := by
  refine Reads.count_bind (f := fun n => f n >>= g) ?_ (hf.bind hg)
  rw [List.length_append]
  exact Nat.le_add_right_of_le hle

/-- Each value of the type is read back as it was written. -/
def Codec.Sound {α : Type} (c : Codec α) : Prop := ∀ v, ∃ bytes, c.Carries v bytes

section Vector

variable {α : Type} {c : Codec α}

theorem Codec.Sound.elements (h : c.Sound) (v : List α) : ∃ bytes : List UInt8,
    v.length ≤ bytes.length ∧ Writes (fun m => v.foldl (fun m x => c.put x m) m) bytes ∧
      ∀ before, Reads (getElements c v.length before) bytes (before ++ v) := by
  induction v with
  | nil =>
      refine ⟨[], Nat.le_refl _, .id, fun before => ?_⟩
      rw [List.append_nil]
      exact .pure before
  | cons x v ih =>
      obtain ⟨bytes, hx⟩ := h x
      obtain ⟨more, hle, hwrites, hreads⟩ := ih
      refine ⟨bytes ++ more, ?_, hx.writes.comp hwrites, fun before => ?_⟩
      · have hpos := List.length_pos_iff.mpr hx.ne_nil
        rw [List.length_append, List.length_cons]
        omega
      · refine (hx.reads c.fresh).bind ?_
        rw [List.append_cons before x v]
        exact hreads (before ++ [x])

theorem Codec.Sound.vector (h : c.Sound) : c.vector.Sound := by
  intro v
  obtain ⟨bytes, hle, hwrites, hreads⟩ := h.elements v
  refine ⟨bytes32 (UInt32.ofNat v.length) ++ bytes, ?_, ?_, fun old => ?_⟩
  · simp [bytes32]
  · exact (carries_unsignedInt _).writes.comp hwrites
  · exact Reads.count_bind (f := fun n => getElements c n []) hle (hreads [])

end Vector

section Map

variable {α β : Type} [Ord α] [Std.TransOrd α] [Std.LawfulEqOrd α] {c : Codec α} {d : Codec β}

theorem Codec.Sound.entries (hc : c.Sound) (hd : d.Sound) (l : List (α × β)) :
    ∃ bytes : List UInt8, l.length ≤ bytes.length ∧
      Writes (fun m => l.foldl (fun m entry => d.put entry.2 (c.put entry.1 m)) m) bytes ∧
      ∀ before, Reads (getEntries c d l.length before) bytes (before.insertAll l) := by
  induction l with
  | nil => exact ⟨[], Nat.le_refl _, .id, .pure⟩
  | cons entry l ih =>
      obtain ⟨key, hkey⟩ := hc entry.1
      obtain ⟨value, hvalue⟩ := hd entry.2
      obtain ⟨more, hle, hwrites, hreads⟩ := ih
      refine ⟨key ++ (value ++ more), ?_, hkey.writes.comp (hvalue.writes.comp hwrites),
        fun before => ?_⟩
      · have hpos := List.length_pos_iff.mpr hkey.ne_nil
        rw [List.length_append, List.length_append, List.length_cons]
        omega
      · refine (hkey.reads c.fresh).bind ((hvalue.reads d.fresh).bind ?_)
        exact hreads (before.insert entry.1 entry.2)

theorem Codec.Sound.map (hc : c.Sound) (hd : d.Sound) : (Codec.map c d).Sound := by
  intro entries
  obtain ⟨bytes, hle, hwrites, hreads⟩ := hc.entries hd entries.entries
  refine ⟨bytes32 (UInt32.ofNat entries.size) ++ bytes, ?_, ?_, fun old => ?_⟩
  · simp [bytes32]
  · exact (carries_unsignedInt _).writes.comp hwrites
  · have hread := hreads .empty
    rw [OrderedMap.empty_insertAll] at hread
    exact Reads.count_bind (f := fun n => getEntries c d n .empty) hle hread

end Map

/-! ### Headers in place -/

def headerBytes (xs : List Int32) : List UInt8 := xs.flatMap fun x => bytes32 x.toUInt32

theorem length_headerBytes (xs : List Int32) : (headerBytes xs).length = 4 * xs.length := by
  induction xs with
  | nil => rfl
  | cons x xs ih =>
      show (bytes32 x.toUInt32 ++ headerBytes xs).length = _
      rw [List.length_append, ih, List.length_cons]
      show 4 + 4 * xs.length = _
      omega

theorem writes_packAll (xs : List Int32) :
    Writes (fun m => xs.foldl Marshall.pack m) (headerBytes xs) := by
  induction xs with
  | nil => exact .id
  | cons x xs ih => exact (writes_pack x).comp ih

theorem Marshall.buf_packHeader (m : Marshall) (xs : List Int32) :
    (m.packHeader xs).buf = overwrite m.buf rpcSzSize (headerBytes xs) :=
  (writes_packAll xs).buf _

theorem Marshall.ind_packHeader (m : Marshall) (xs : List Int32) : (m.packHeader xs).ind = m.ind :=
  rfl

theorem Marshall.getContent_packHeader (m : Marshall) {xs : List Int32}
    (hxs : rpcSzSize + 4 * xs.length ≤ rpcHeaderSz) :
    (m.packHeader xs).getContent = m.getContent := by
  apply List.ext_getElem
  · simp only [Marshall.getContent, List.length_drop, Marshall.length_takeBuf, m.ind_packHeader]
  · intro i _ _
    have hbehind : rpcSzSize + (headerBytes xs).length ≤ rpcHeaderSz + i := by
      rw [length_headerBytes]
      omega
    simpa [Marshall.getContent, Marshall.takeBuf, m.buf_packHeader] using overwrite_of_le hbehind

theorem reads_reqHeader (h : ReqHeader) :
    Reads (do
      let xid ← unpack
      let proc ← unpack
      let cltNonce ← unpack
      let srvNonce ← unpack
      let xidRep ← unpack
      pure ⟨xid, proc, cltNonce.toUInt32, srvNonce.toUInt32, xidRep⟩)
      (headerBytes [h.xid, h.proc, h.cltNonce.toInt32, h.srvNonce.toInt32, h.xidRep]) h := by
  refine (reads_unpack _).bind ((reads_unpack _).bind ((reads_unpack _).bind
    ((reads_unpack _).bind ((reads_unpack _).bind ?_))))
  apply Reads.pure_of_eq
  simp

theorem reads_replyHeader (h : ReplyHeader) :
    Reads (do
      let xid ← unpack
      let ret ← unpack
      pure (⟨xid, ret⟩ : ReplyHeader))
      (headerBytes [h.xid, h.ret]) h :=
  (reads_unpack _).bind ((reads_unpack _).bind (.pure h))

theorem unpackHeader_eq {α : Type} {fields : StateM Unmarshall α} {bytes more : List UInt8} {h : α}
    {u : Unmarshall} (hfields : Reads fields bytes h)
    (hu : Unmarshall.Holds { u with ind := rpcSzSize } (bytes ++ more)) :
    unpackHeader fields u = (h, { u with ind := rpcHeaderSz }) := by
  show (let r := fields { u with ind := rpcSzSize }
    (r.1, { r.2 with ind := rpcHeaderSz })) = _
  rw [hfields _ _ hu]
  rfl

end DistributedLab.Wire
