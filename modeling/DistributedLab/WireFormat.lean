import DistributedLab.Marshall

/-!
# The wire format

The records of the protocols are marshalled field by field, each with a pair of operators of
its own.  Every value of a type that can be marshalled is read back as it was written, so a
message survives the trip: a receiver that unpacks the header and reads the same types in
the same order gets the header and the values of the sender, and has then consumed the whole
message.

The records here are those of the C++ headers with their machine types; a `std::string` is
the list of its bytes.
-/

namespace DistributedLab.Wire

/-! ### Records -/

structure PropT where
  n : UInt32
  m : List UInt8
deriving DecidableEq

structure PrepareArg where
  inst : UInt32
  n : PropT
deriving DecidableEq

structure PrepareRes where
  oldinstance : Bool
  accept : Bool
  nA : PropT
  vA : List UInt8
deriving DecidableEq

structure AcceptArg where
  inst : UInt32
  n : PropT
  v : List UInt8
deriving DecidableEq

structure DecideArg where
  inst : UInt32
  v : List UInt8
deriving DecidableEq

structure Viewstamp where
  vid : UInt32
  seqno : UInt32
deriving DecidableEq

structure TransferRes where
  state : List UInt8
  last : Viewstamp
deriving DecidableEq

structure JoinRes where
  log : List UInt8
deriving DecidableEq

structure Attr where
  atime : UInt32
  mtime : UInt32
  ctime : UInt32
  size : UInt32
deriving DecidableEq

namespace Codec

def propT : Codec PropT where
  put a m := string.put a.m (unsignedInt.put a.n m)
  get a := do
    let n ← unsignedInt.get a.n
    let m ← string.get a.m
    pure ⟨n, m⟩
  fresh := ⟨unsignedInt.fresh, string.fresh⟩

def prepareArg : Codec PrepareArg where
  put a m := propT.put a.n (unsignedInt.put a.inst m)
  get a := do
    let inst ← unsignedInt.get a.inst
    let n ← propT.get a.n
    pure ⟨inst, n⟩
  fresh := ⟨unsignedInt.fresh, propT.fresh⟩

def prepareRes : Codec PrepareRes where
  put r m := string.put r.vA (propT.put r.nA (bool.put r.accept (bool.put r.oldinstance m)))
  get r := do
    let oldinstance ← bool.get r.oldinstance
    let accept ← bool.get r.accept
    let nA ← propT.get r.nA
    let vA ← string.get r.vA
    pure ⟨oldinstance, accept, nA, vA⟩
  fresh := ⟨bool.fresh, bool.fresh, propT.fresh, string.fresh⟩

def acceptArg : Codec AcceptArg where
  put a m := string.put a.v (propT.put a.n (unsignedInt.put a.inst m))
  get a := do
    let inst ← unsignedInt.get a.inst
    let n ← propT.get a.n
    let v ← string.get a.v
    pure ⟨inst, n, v⟩
  fresh := ⟨unsignedInt.fresh, propT.fresh, string.fresh⟩

def decideArg : Codec DecideArg where
  put a m := string.put a.v (unsignedInt.put a.inst m)
  get a := do
    let inst ← unsignedInt.get a.inst
    let v ← string.get a.v
    pure ⟨inst, v⟩
  fresh := ⟨unsignedInt.fresh, string.fresh⟩

/-- A viewstamp has a constructor without arguments, so a fresh one is 0. -/
def viewstamp : Codec Viewstamp where
  put v m := unsignedInt.put v.seqno (unsignedInt.put v.vid m)
  get v := do
    let vid ← unsignedInt.get v.vid
    let seqno ← unsignedInt.get v.seqno
    pure ⟨vid, seqno⟩
  fresh := ⟨0, 0⟩

def transferRes : Codec TransferRes where
  put r m := viewstamp.put r.last (string.put r.state m)
  get r := do
    let state ← string.get r.state
    let last ← viewstamp.get r.last
    pure ⟨state, last⟩
  fresh := ⟨string.fresh, viewstamp.fresh⟩

def joinRes : Codec JoinRes where
  put r m := string.put r.log m
  get r := do
    let log ← string.get r.log
    pure ⟨log⟩
  fresh := ⟨string.fresh⟩

def attr : Codec Attr where
  put a m := unsignedInt.put a.size (unsignedInt.put a.ctime
    (unsignedInt.put a.mtime (unsignedInt.put a.atime m)))
  get a := do
    let atime ← unsignedInt.get a.atime
    let mtime ← unsignedInt.get a.mtime
    let ctime ← unsignedInt.get a.ctime
    let size ← unsignedInt.get a.size
    pure ⟨atime, mtime, ctime, size⟩
  fresh := ⟨unsignedInt.fresh, unsignedInt.fresh, unsignedInt.fresh, unsignedInt.fresh⟩

/-! ### The operators of a record agree

In each record the fields are read in the order in which they are written. -/

theorem sound_propT : propT.Sound := by
  intro a
  have hn := carries_unsignedInt a.n
  have hm := carries_string a.m
  refine ⟨_, ?_, hn.writes.comp (hm.writes.comp .id), fun old => ?_⟩
  · simp [bytes32]
  · exact (hn.reads _).bind ((hm.reads _).bind (.pure a))

theorem sound_prepareArg : prepareArg.Sound := by
  intro a
  have hinst := carries_unsignedInt a.inst
  obtain ⟨bytes, hn⟩ := sound_propT a.n
  refine ⟨_, ?_, hinst.writes.comp (hn.writes.comp .id), fun old => ?_⟩
  · simp [bytes32]
  · exact (hinst.reads _).bind ((hn.reads _).bind (.pure a))

theorem sound_prepareRes : prepareRes.Sound := by
  intro r
  have hold := carries_bool r.oldinstance
  have haccept := carries_bool r.accept
  obtain ⟨bytes, hn⟩ := sound_propT r.nA
  have hv := carries_string r.vA
  refine ⟨_, ?_, hold.writes.comp (haccept.writes.comp (hn.writes.comp (hv.writes.comp .id))),
    fun old => ?_⟩
  · simp
  · exact (hold.reads _).bind ((haccept.reads _).bind ((hn.reads _).bind
      ((hv.reads _).bind (.pure r))))

theorem sound_acceptArg : acceptArg.Sound := by
  intro a
  have hinst := carries_unsignedInt a.inst
  obtain ⟨bytes, hn⟩ := sound_propT a.n
  have hv := carries_string a.v
  refine ⟨_, ?_, hinst.writes.comp (hn.writes.comp (hv.writes.comp .id)), fun old => ?_⟩
  · simp [bytes32]
  · exact (hinst.reads _).bind ((hn.reads _).bind ((hv.reads _).bind (.pure a)))

theorem sound_decideArg : decideArg.Sound := by
  intro a
  have hinst := carries_unsignedInt a.inst
  have hv := carries_string a.v
  refine ⟨_, ?_, hinst.writes.comp (hv.writes.comp .id), fun old => ?_⟩
  · simp [bytes32]
  · exact (hinst.reads _).bind ((hv.reads _).bind (.pure a))

theorem sound_viewstamp : viewstamp.Sound := by
  intro v
  have hvid := carries_unsignedInt v.vid
  have hseqno := carries_unsignedInt v.seqno
  refine ⟨_, ?_, hvid.writes.comp (hseqno.writes.comp .id), fun old => ?_⟩
  · simp [bytes32]
  · exact (hvid.reads _).bind ((hseqno.reads _).bind (.pure v))

theorem sound_transferRes : transferRes.Sound := by
  intro r
  have hstate := carries_string r.state
  obtain ⟨bytes, hlast⟩ := sound_viewstamp r.last
  refine ⟨_, ?_, hstate.writes.comp (hlast.writes.comp .id), fun old => ?_⟩
  · simp [bytes32]
  · exact (hstate.reads _).bind ((hlast.reads _).bind (.pure r))

theorem sound_joinRes : joinRes.Sound := by
  intro r
  have hlog := carries_string r.log
  refine ⟨_, ?_, hlog.writes.comp .id, fun old => ?_⟩
  · simp [bytes32]
  · exact (hlog.reads _).bind (.pure r)

theorem sound_attr : attr.Sound := by
  intro a
  have hatime := carries_unsignedInt a.atime
  have hmtime := carries_unsignedInt a.mtime
  have hctime := carries_unsignedInt a.ctime
  have hsize := carries_unsignedInt a.size
  refine ⟨_, ?_, hatime.writes.comp (hmtime.writes.comp (hctime.writes.comp
    (hsize.writes.comp .id))), fun old => ?_⟩
  · simp [bytes32]
  · exact (hatime.reads _).bind ((hmtime.reads _).bind ((hctime.reads _).bind
      ((hsize.reads _).bind (.pure a))))

end Codec

/-! ### Types that can be marshalled -/

/-- The types for which there are operators.  The keys of a map may have any strict total
    order. -/
inductive Marshallable : {α : Type} → Codec α → Prop
  | bool : Marshallable .bool
  | char : Marshallable .char
  | unsignedChar : Marshallable .unsignedChar
  | short : Marshallable .short
  | unsignedShort : Marshallable .unsignedShort
  | int : Marshallable .int
  | unsignedInt : Marshallable .unsignedInt
  | unsignedLongLong : Marshallable .unsignedLongLong
  | string : Marshallable .string
  | vector {α : Type} {c : Codec α} (hc : Marshallable c) : Marshallable c.vector
  | map {α β : Type} [Ord α] [Std.TransOrd α] [Std.LawfulEqOrd α] {c : Codec α} {d : Codec β}
      (hc : Marshallable c) (hd : Marshallable d) : Marshallable (.map c d)
  | propT : Marshallable .propT
  | prepareArg : Marshallable .prepareArg
  | prepareRes : Marshallable .prepareRes
  | acceptArg : Marshallable .acceptArg
  | decideArg : Marshallable .decideArg
  | viewstamp : Marshallable .viewstamp
  | transferRes : Marshallable .transferRes
  | joinRes : Marshallable .joinRes
  | attr : Marshallable .attr

theorem Marshallable.sound {α : Type} {c : Codec α} (h : Marshallable c) : c.Sound := by
  induction h with
  | bool => exact fun x => ⟨_, Codec.carries_bool x⟩
  | char => exact fun x => ⟨_, Codec.carries_char x⟩
  | unsignedChar => exact fun x => ⟨_, Codec.carries_unsignedChar x⟩
  | short => exact fun x => ⟨_, Codec.carries_short x⟩
  | unsignedShort => exact fun x => ⟨_, Codec.carries_unsignedShort x⟩
  | int => exact fun x => ⟨_, Codec.carries_int x⟩
  | unsignedInt => exact fun x => ⟨_, Codec.carries_unsignedInt x⟩
  | unsignedLongLong => exact fun x => ⟨_, Codec.carries_unsignedLongLong x⟩
  | string => exact fun s => ⟨_, Codec.carries_string s⟩
  | vector _ ih => exact ih.vector
  | map _ _ ihc ihd => exact ihc.map ihd
  | propT => exact Codec.sound_propT
  | prepareArg => exact Codec.sound_prepareArg
  | prepareRes => exact Codec.sound_prepareRes
  | acceptArg => exact Codec.sound_acceptArg
  | decideArg => exact Codec.sound_decideArg
  | viewstamp => exact Codec.sound_viewstamp
  | transferRes => exact Codec.sound_transferRes
  | joinRes => exact Codec.sound_joinRes
  | attr => exact Codec.sound_attr

/-! ### Messages -/

/-- `m << v₁ << v₂ …` and `u >> v₁ >> v₂ …` for a sequence of values. -/
def Codec.nothing : Codec Unit where
  put _ m := m
  get _ := pure ()
  fresh := ()

def Codec.andThen {α β : Type} (c : Codec α) (d : Codec β) : Codec (α × β) where
  put v m := d.put v.2 (c.put v.1 m)
  get v := do
    let first ← c.get v.1
    let rest ← d.get v.2
    pure (first, rest)
  fresh := (c.fresh, d.fresh)

/-- The sequences of values of marshallable types. -/
inductive Sequence : {α : Type} → Codec α → Prop
  | nil : Sequence .nothing
  | cons {α β : Type} {c : Codec α} {d : Codec β} (hc : Marshallable c) (hd : Sequence d) :
      Sequence (c.andThen d)

theorem Sequence.agrees {α : Type} {c : Codec α} (h : Sequence c) (v : α) :
    ∃ bytes, Writes (c.put v) bytes ∧ ∀ old, Reads (c.get old) bytes v := by
  induction h with
  | nil => exact ⟨[], .id, fun _ => .pure ()⟩
  | cons hc _ ih =>
      obtain ⟨bytes, hfirst⟩ := hc.sound v.1
      obtain ⟨more, hwrites, hreads⟩ := ih v.2
      refine ⟨bytes ++ (more ++ []), hfirst.writes.comp (hwrites.comp .id), fun old => ?_⟩
      exact (hfirst.reads old.1).bind ((hreads old.2).bind (.pure v))

/-! ### PDUs -/

section Pdu

variable {α : Type} {c : Codec α} {xs : List Int32} {bytes : List UInt8} {f : Marshall → Marshall}
  {m : Marshall}

/-- What is written behind the header leaves it as it is. -/
theorem Writes.header_takeBuf (h : Writes f bytes) (hm : m.ind = rpcHeaderSz)
    (hxs : xs.length ≤ 5) : ∃ more, (f (m.packHeader xs)).takeBuf.drop rpcSzSize =
      headerBytes xs ++ more := by
  have hlength := length_headerBytes xs
  have hend : rpcSzSize + (headerBytes xs).length ≤ rpcHeaderSz := by
    show 4 + _ ≤ 24
    omega
  refine ⟨_, Marshall.drop_takeBuf ?_ fun i hi => ?_⟩
  · rw [h.ind, Marshall.ind_packHeader, hm]
    omega
  · rw [h.buf, Marshall.ind_packHeader, hm, overwrite_of_lt (by omega), Marshall.buf_packHeader]
    exact overwrite_add hi

theorem Writes.body_takeBuf (h : Writes f bytes) (hm : m.ind = rpcHeaderSz) (xs : List Int32) :
    (f (m.packHeader xs)).takeBuf.drop rpcHeaderSz = bytes := by
  rw [← hm, ← Marshall.ind_packHeader m xs]
  exact h.drop_takeBuf (m.packHeader xs)

/-- A PDU whose header has at most five ints. -/
theorem read_pdu {β : Type} {fields : StateM Unmarshall β} {header : β} (hc : Sequence c) (v : α)
    (hm : m.ind = rpcHeaderSz) (hfields : Reads fields (headerBytes xs) header)
    (hxs : xs.length ≤ 5) (hfit : (c.put v (m.packHeader xs)).ind ≤ maxPdu) (old : α) :
    ∃ u : Unmarshall, u.okdone = true ∧
      (do
        let h ← unpackHeader fields
        let v ← c.get old
        pure (h, v)) (Unmarshall.ofBuf (c.put v (m.packHeader xs)).takeBuf) = ((header, v), u) := by
  obtain ⟨bytes, hwrites, hreads⟩ := hc.agrees v
  obtain ⟨more, hheader⟩ := hwrites.header_takeBuf hm hxs
  have hbody := hwrites.body_takeBuf hm xs
  have hlength : (c.put v (m.packHeader xs)).takeBuf.length = rpcHeaderSz + bytes.length := by
    rw [Marshall.length_takeBuf, hwrites.ind, Marshall.ind_packHeader, hm]
  have hsize : (c.put v (m.packHeader xs)).takeBuf.length < 2 ^ 31 := by
    rw [Marshall.length_takeBuf]
    exact Nat.lt_of_le_of_lt hfit (by decide)
  generalize (c.put v (m.packHeader xs)).takeBuf = buf at hheader hbody hlength hsize ⊢
  have hstart : Unmarshall.Holds ⟨buf, rpcSzSize, true⟩ (headerBytes xs ++ more) :=
    ⟨rfl, hsize, by
      rw [hlength]
      exact Nat.le_trans (by decide : rpcSzSize ≤ rpcHeaderSz) (Nat.le_add_right _ _), hheader⟩
  have hvalues : Unmarshall.Holds ⟨buf, rpcHeaderSz, true⟩ (bytes ++ []) :=
    ⟨rfl, hsize, hlength ▸ Nat.le_add_right _ _, hbody.trans (List.append_nil bytes).symm⟩
  have hunpack : unpackHeader fields (Unmarshall.ofBuf buf) = (header, ⟨buf, rpcHeaderSz, true⟩) :=
    unpackHeader_eq hfields hstart
  have hget := hreads old _ _ hvalues
  refine ⟨⟨buf, rpcHeaderSz + bytes.length, true⟩, ?_, ?_⟩
  · simp [Unmarshall.okdone, hlength]
  · show (let r := unpackHeader fields (Unmarshall.ofBuf buf)
      let s := c.get old r.2
      ((r.1, s.1), s.2)) = _
    rw [hunpack]
    show (((header, (c.get old _).1), (c.get old _).2) : (β × α) × Unmarshall) = _
    rw [hget]
    rfl

end Pdu

/-- A message that fits in one PDU is read as it was written, whatever the memory of the buffer
    and the variables of the receiver held before. -/
theorem round_trip {α : Type} {c : Codec α} (hc : Sequence c) (v : α) (memory : Nat → UInt8) :
    (∀ h : ReqHeader,
      (c.put v ((Marshall.new memory).packReqHeader h)).ind ≤ maxPdu → ∀ old : α,
        ∃ u : Unmarshall, u.okdone = true ∧
          (do
            let h ← unpackReqHeader
            let v ← c.get old
            pure (h, v)) (Unmarshall.ofBuf
              (c.put v ((Marshall.new memory).packReqHeader h)).takeBuf) = ((h, v), u)) ∧
    (∀ h : ReplyHeader,
      (c.put v ((Marshall.new memory).packReplyHeader h)).ind ≤ maxPdu → ∀ old : α,
        ∃ u : Unmarshall, u.okdone = true ∧
          (do
            let h ← unpackReplyHeader
            let v ← c.get old
            pure (h, v)) (Unmarshall.ofBuf
              (c.put v ((Marshall.new memory).packReplyHeader h)).takeBuf) = ((h, v), u)) := by
  constructor
  · intro h hfit old
    exact read_pdu hc v rfl (reads_reqHeader h) (by simp) hfit old
  · intro h hfit old
    exact read_pdu hc v rfl (reads_replyHeader h) (by simp) hfit old

/-- The message of `testmarshall`, followed by a vector and a map. -/
def testMessage : Codec (Int32 × UInt64 × List UInt8 × List Viewstamp ×
    OrderedMap UInt64 Bool × Unit) :=
  Codec.int.andThen (Codec.unsignedLongLong.andThen (Codec.string.andThen
    (Codec.viewstamp.vector.andThen ((Codec.map .unsignedLongLong .bool).andThen .nothing))))

def testValues : Int32 × UInt64 × List UInt8 × List Viewstamp × OrderedMap UInt64 Bool × Unit :=
  (12345, 1223344455, [104, 97, 108, 108, 111, 46, 46, 46, 46], [⟨1, 2⟩, ⟨3, 4⟩],
    (OrderedMap.empty.insert 7 true).insert 5 false, ())

theorem round_trip_testMessage :
    (testMessage.put testValues ((Marshall.new fun _ => 0xff).packReqHeader ⟨1, 2, 3, 4, 5⟩)).ind ≤
        maxPdu ∧
      ∃ u : Unmarshall, u.okdone = true ∧
        (do
          let h ← unpackReqHeader
          let v ← testMessage.get testMessage.fresh
          pure (h, v)) (Unmarshall.ofBuf (testMessage.put testValues
            ((Marshall.new fun _ => 0xff).packReqHeader ⟨1, 2, 3, 4, 5⟩)).takeBuf) =
          ((⟨1, 2, 3, 4, 5⟩, testValues), u) := by
  have hmessage : Sequence testMessage :=
    .cons .int (.cons .unsignedLongLong (.cons .string (.cons (.vector .viewstamp)
      (.cons (.map .unsignedLongLong .bool) .nil))))
  have hfit : (testMessage.put testValues
      ((Marshall.new fun _ => 0xff).packReqHeader ⟨1, 2, 3, 4, 5⟩)).ind ≤ maxPdu := by decide
  exact ⟨hfit, (round_trip hmessage testValues fun _ => 0xff).1 _ hfit _⟩

end DistributedLab.Wire
