import DistributedLab.Marshall
import DistributedLab.Transition
import Mathlib.Data.List.Flatten

/-!
# PDUs on a connection

A connection sends its PDUs over a byte stream.  `send` puts a buffer into `wpdu_`, and
`writepdu` writes as much of it as the kernel takes, after it has stamped the size of the
PDU into the first four bytes; `write_cb` goes on when the socket is ready again.  At the
other end `read_cb` collects the bytes of one PDU in `rpdu_` and hands the buffer to
`got_pdu`, again and again until it is taken.

A step is a critical section of `m_`.  The kernel decides how many bytes a call moves, and
may refuse or fail at any time.  A `VERIFY` that fails ends the process: the step cannot be
taken.  Either end may die between steps, for instance through `closeconn` or because the
other direction has failed.
-/

namespace DistributedLab.Channel

open Transition Wire
open BigEndian (sizeT sizeT_natCast)

/-! ### Buffers -/

/-- The size is copied to the first four bytes, in network order. -/
def stamp (sz : Int) (b : List UInt8) : List UInt8 := bytes32 (Int32.ofInt sz).toUInt32 ++ b.drop 4

/-- A PDU with its own size, as it is sent. -/
def stamped (b : List UInt8) : List UInt8 := stamp b.length b

def ntohl : List UInt8 → Int
  | [a, b, c, d] =>
      (a.toUInt32 <<< 24 ||| b.toUInt32 <<< 16 ||| c.toUInt32 <<< 8 ||| d.toUInt32).toInt32.toInt
  | _ => 0

/-- `charbuf`.  For `rpdu_` the buffer is the part of it that has been filled. -/
structure Charbuf where
  buf : Option (List UInt8)
  sz : Int
  solong : Int
deriving DecidableEq

def Charbuf.empty : Charbuf := ⟨none, 0, 0⟩

/-! ### The kernel -/

/-- What `write` does: it takes at most `n` bytes, or fails with EAGAIN or otherwise. -/
inductive Written where
  | wrote (n : Nat)
  | again
  | failed
deriving DecidableEq, Repr

/-- What `read` does: it delivers at most `n` bytes, reports the end of the stream (`errno` still
    has the value of an earlier call), or fails. -/
inductive Received where
  | bytes (n : Nat)
  | eof (again : Bool)
  | again
  | failed
deriving DecidableEq, Repr

/-- The result of `read`, whether `errno` is EAGAIN, and the bytes. -/
structure ReadReturn where
  n : Int
  again : Bool
  got : List UInt8
  rest : List UInt8

def read (wire : List UInt8) (want : Nat) : Received → ReadReturn
  | .bytes n =>
      let got := wire.take (min n want)
      ⟨got.length, false, got, wire.drop (min n want)⟩
  | .eof again => ⟨0, again, [], wire⟩
  | .again => ⟨-1, true, [], wire⟩
  | .failed => ⟨-1, false, [], wire⟩

/-- `malloc` has room for `size` bytes: no object is larger than `PTRDIFF_MAX`. -/
def mallocs (size : Nat) : Bool := decide (size ≤ 9223372036854775807)

/-! ### Reading and writing a PDU -/

/-- `writepdu`: whether it succeeds, the buffer afterwards, and the bytes that `write` took. -/
def writepdu (w : Charbuf) (r : Written) : Option (Bool × Charbuf × List UInt8) :=
  if w.solong < 0 then none
  else if w.solong = w.sz then some (true, w, [])
  else
    match w.buf with
    | none => none
    | some b =>
        let b := if w.solong = 0 then stamp w.sz b else b
        match r with
        | .failed => some (false, ⟨some b, 0, -1⟩, [])
        | .again => some (true, ⟨some b, w.sz, w.solong⟩, [])
        | .wrote n =>
            let bytes := (b.drop w.solong.toNat).take (min n (sizeT (w.sz - w.solong)))
            some (true, ⟨some b, w.sz, w.solong + bytes.length⟩, bytes)

/-- The second part of `readpdu`. -/
def readBody (w : Charbuf) (wire : List UInt8) (r : Received) : Bool × Charbuf × List UInt8 :=
  let x := read wire (sizeT (w.sz - w.solong)) r
  if x.n ≤ 0 then
    if x.again then (true, w, x.rest) else (false, .empty, x.rest)
  else (true, ⟨some (w.buf.getD [] ++ x.got), w.sz, w.solong + x.n⟩, x.rest)

/-- `readpdu`: whether it succeeds, the buffer and what is left of the stream.  The size is read
    first; a short read of it is an error, and EAGAIN is excluded by a `VERIFY`.  So is a null
    pointer from `malloc`, which is what it gives for a size below -4. -/
def readpdu (w : Charbuf) (wire : List UInt8) (size body : Received) :
    Option (Bool × Charbuf × List UInt8) :=
  if w.sz = 0 then
    let x := read wire 4 size
    if x.n = 0 then some (false, w, x.rest)
    else if x.n < 0 then
      if x.again then none else some (false, w, x.rest)
    else if x.n ≠ 4 then some (false, w, x.rest)
    else if ntohl x.got > maxPdu then some (false, w, x.rest)
    else if w.buf ≠ none then none
    else if mallocs (sizeT (ntohl x.got + 4)) = false then none
    else some (readBody ⟨some x.got, ntohl x.got, 4⟩ x.rest body)
  else some (readBody w wire body)

/-! ### The two ends of a connection -/

/-- `passed` are the buffers of the calls of `send`, in the order in which the calls get past the
    wait for `wpdu_`, and `consumed` those that `got_pdu` has taken. -/
structure Link where
  senderDead : Bool
  wpdu : Charbuf
  wire : List UInt8
  receiverDead : Bool
  rpdu : Charbuf
  passed : List (List UInt8)
  consumed : List (List UInt8)

def Link.new : Link := ⟨false, .empty, [], false, .empty, [], []⟩

/-- A call waits while another one uses `wpdu_`.  It returns at once when the connection is dead or
    everything has been written. -/
def Link.send (s : Link) (b : List UInt8) (r : Written) : Option Link :=
  if s.senderDead then some { s with passed := s.passed ++ [b] }
  else if s.wpdu.buf ≠ none then none
  else
    (writepdu ⟨some b, b.length, 0⟩ r).map fun (ok, w, bytes) =>
      { s with
        senderDead := !ok
        wpdu := if ok ∧ w.solong = w.sz then .empty else w
        wire := s.wire ++ bytes
        passed := s.passed ++ [b] }

/-- The rest of a call that had to wait for the writes or has failed. -/
def Link.sendReturns (s : Link) : Option Link :=
  if s.wpdu.buf ≠ none ∧ (s.senderDead ∨ s.wpdu.solong < 0 ∨ s.wpdu.sz ≤ s.wpdu.solong) then
    some { s with wpdu := .empty }
  else none

def Link.writeCb (s : Link) (r : Written) : Option Link :=
  if s.senderDead then none
  else if s.wpdu.sz = 0 then some s
  else
    (writepdu s.wpdu r).map fun (ok, w, bytes) =>
      { s with senderDead := !ok, wpdu := w, wire := s.wire ++ bytes }

/-- The end of `read_cb`. -/
def Link.deliver (s : Link) (takes : Bool) : Link :=
  match s.rpdu.buf with
  | none => s
  | some b =>
      if s.rpdu.sz = s.rpdu.solong ∧ takes then
        { s with rpdu := .empty, consumed := s.consumed ++ [b] }
      else s

def Link.readCb (s : Link) (size body : Received) (takes : Bool) : Option Link :=
  if s.receiverDead then some s
  else if s.rpdu.buf = none ∨ s.rpdu.solong < s.rpdu.sz then
    (readpdu s.rpdu s.wire size body).map fun (succ, w, wire) =>
      ({ s with receiverDead := !succ, rpdu := w, wire := wire } : Link).deliver takes
  else some (s.deliver takes)

inductive Action where
  | send (b : List UInt8) (r : Written)
  | sendReturns
  | writeCb (r : Written)
  | readCb (size body : Received) (takes : Bool)
  | senderDies
  | receiverDies
deriving DecidableEq, Repr

def Link.step (s : Link) : Action → Option Link
  | .send b r => s.send b r
  | .sendReturns => s.sendReturns
  | .writeCb r => s.writeCb r
  | .readCb size body takes => s.readCb size body takes
  | .senderDies => some { s with senderDead := true }
  | .receiverDies => some { s with receiverDead := true }

def linkSystem : System Link Action where
  init s := s = .new
  step := Link.step

/-- The PDUs that are passed to `send` have room for the header and are not too long. -/
def Sized (_ : Link) : Action → Prop
  | .send b _ => rpcHeaderSz ≤ b.length ∧ b.length ≤ maxPdu
  | _ => True

instance (s : Link) : (action : Action) → Decidable (Sized s action)
  | .send _ _ => inferInstanceAs (Decidable (_ ∧ _))
  | .sendReturns | .writeCb _ | .readCb _ _ _ | .senderDies | .receiverDies =>
      inferInstanceAs (Decidable True)

/-! ### Frames -/

theorem ofInt_natCast (n : Nat) : (Int32.ofInt (n : Int)).toUInt32 = UInt32.ofNat n :=
  UInt32.toBitVec_inj.mp (BitVec.ofInt_natCast 32 n)

theorem ntohl_bytes32 {n : Nat} (h : n < 2 ^ 31) : ntohl (bytes32 (UInt32.ofNat n)) = n := by
  unfold bytes32 ntohl
  dsimp only
  rw [BigEndian.ofBytes32]
  exact Int32.toInt_ofNat_of_lt h

theorem stamped_eq (b : List UInt8) : stamped b = bytes32 (UInt32.ofNat b.length) ++ b.drop 4 := by
  rw [stamped, stamp, ofInt_natCast]

theorem length_bytes32 (x : UInt32) : (bytes32 x).length = 4 := rfl

theorem length_stamped {b : List UInt8} (h : 4 ≤ b.length) : (stamped b).length = b.length := by
  rw [stamped_eq, List.length_append, length_bytes32, List.length_drop]
  omega

theorem stamped_stamped {b : List UInt8} (h : 4 ≤ b.length) : stamped (stamped b) = stamped b := by
  rw [stamped_eq, length_stamped h, stamped_eq, List.drop_left' (length_bytes32 _)]

/-- A PDU as it stands in the stream: its first bytes are its size. -/
structure IsFrame (f : List UInt8) : Prop where
  header_le : rpcHeaderSz ≤ f.length
  le_max : f.length ≤ maxPdu
  size : f.take 4 = bytes32 (UInt32.ofNat f.length)

theorem isFrame_stamped {b : List UInt8} (h : rpcHeaderSz ≤ b.length ∧ b.length ≤ maxPdu) :
    IsFrame (stamped b) := by
  have hfour : 4 ≤ b.length := Nat.le_trans (by decide) h.1
  have hlength := length_stamped hfour
  refine ⟨hlength ▸ h.1, hlength ▸ h.2, ?_⟩
  rw [hlength, stamped_eq, List.take_left' (length_bytes32 _)]

theorem IsFrame.length_lt {f : List UInt8} (h : IsFrame f) : f.length < 2 ^ 31 :=
  Nat.lt_of_le_of_lt h.le_max (by decide)

theorem IsFrame.four_le {f : List UInt8} (h : IsFrame f) : 4 ≤ f.length :=
  Nat.le_trans (by decide) h.header_le

theorem IsFrame.ntohl_take {f : List UInt8} (h : IsFrame f) : ntohl (f.take 4) = f.length := by
  rw [h.size, ntohl_bytes32 h.length_lt]

/-- Four bytes of the stream at the start of a PDU are the size of that PDU. -/
theorem frame_of_bytes {next : List (List UInt8)} {b tail : List UInt8}
    (hnext : ∀ f ∈ next, IsFrame f) (h : b ++ tail = next.flatten) (hb : 4 ≤ b.length) :
    ∃ f more, next = f :: more ∧ IsFrame f ∧ b.take 4 = f.take 4 ∧
      b ++ tail = f ++ more.flatten := by
  cases next with
  | nil =>
      have hnil : b ++ tail = [] := h
      rw [(List.append_eq_nil_iff.mp hnil).1] at hb
      exact absurd hb (by decide)
  | cons f more =>
      have hf := hnext f List.mem_cons_self
      rw [List.flatten_cons] at h
      refine ⟨f, more, rfl, hf, ?_, h⟩
      have htake := congrArg (List.take 4) h
      rwa [List.take_append_of_le_length hb, List.take_append_of_le_length hf.four_le] at htake

/-! ### What a write leaves -/

theorem take_append_drop_length (l : List UInt8) (n : Nat) :
    l.take n ++ l.drop (l.take n).length = l := by
  have htake : l.take (l.take n).length = l.take n := by
    rw [List.length_take, ← List.take_eq_take_min]
  have h := List.take_append_drop (l.take n).length l
  rwa [htake] at h

/-- `wpdu_` of a connection that is alive: free, or a PDU of which a part has been written. -/
inductive Charbuf.Sending : Charbuf → Prop
  | idle : Sending .empty
  | busy {b : List UInt8} {k : Nat} (hfour : 4 ≤ b.length) (hmax : b.length ≤ maxPdu)
      (hk : k ≤ b.length) (hstamped : 0 < k → stamped b = b) : Sending ⟨some b, b.length, k⟩

/-- What is still to be written. -/
def Charbuf.remaining (w : Charbuf) : List UInt8 :=
  match w.buf with
  | none => []
  | some b => (stamped b).drop w.solong.toNat

theorem Charbuf.sending_stamped {b : List UInt8} {k : Nat} (hfour : 4 ≤ b.length)
    (hmax : b.length ≤ maxPdu) (hk : k ≤ b.length) :
    Charbuf.Sending ⟨some (stamped b), b.length, k⟩ := by
  have hlength := length_stamped hfour
  have hbusy : Charbuf.Sending ⟨some (stamped b), (stamped b).length, k⟩ :=
    .busy (hlength ▸ hfour) (hlength ▸ hmax) (hlength ▸ hk) fun _ => stamped_stamped hfour
  rwa [hlength] at hbusy

theorem Charbuf.remaining_stamped {b : List UInt8} (hfour : 4 ≤ b.length) (sz : Int) (k : Nat) :
    Charbuf.remaining ⟨some (stamped b), sz, k⟩ = (stamped b).drop k := by
  show (stamped (stamped b)).drop k = _
  rw [stamped_stamped hfour]

/-- A write moves bytes from what remains to the stream, or fails and moves none. -/
theorem writepdu_cases {w w' : Charbuf} {r : Written} {ok : Bool} {bytes : List UInt8}
    (h : w.Sending) (hw : writepdu w r = some (ok, w', bytes)) :
    ok = true ∧ w'.Sending ∧ bytes ++ w'.remaining = w.remaining ∨ ok = false ∧ bytes = [] := by
  cases h with
  | idle =>
      simp only [writepdu, Charbuf.empty] at hw
      cases hw
      exact .inl ⟨rfl, .idle, rfl⟩
  | @busy b k hfour hmax hk hstamped =>
      have hpos : ¬ (k : Int) < 0 := by omega
      -- the first write stamps the buffer, and later ones find it stamped
      have hbuf : (if (k : Int) = 0 then stamp b.length b else b) = stamped b := by
        split_ifs with hzero
        · rfl
        · exact (hstamped (by omega)).symm
      simp only [writepdu, hpos, if_false, hbuf] at hw
      split_ifs at hw with hdone
      · cases hw
        exact .inl ⟨rfl, .busy hfour hmax hk hstamped, rfl⟩
      · cases r with
        | failed =>
            cases hw
            exact .inr ⟨rfl, rfl⟩
        | again =>
            cases hw
            exact .inl ⟨rfl, Charbuf.sending_stamped hfour hmax hk,
              Charbuf.remaining_stamped hfour _ _⟩
        | wrote n =>
            cases hw
            let written := ((stamped b).drop k).take (min n (sizeT (b.length - k)))
            have hlength : written.length ≤ b.length - k := by
              rw [← length_stamped hfour, ← List.length_drop]
              exact List.length_take_le' _ _
            have hsolong : (k : Int) + (written.length : Int) = ((k + written.length : Nat) : Int) :=
              (Int.natCast_add k written.length).symm
            show true = true ∧ Charbuf.Sending ⟨some (stamped b), b.length, k + written.length⟩ ∧
              written ++ Charbuf.remaining ⟨some (stamped b), b.length, k + written.length⟩ = _ ∨ _
            rw [hsolong, Charbuf.remaining_stamped hfour]
            refine .inl ⟨rfl, Charbuf.sending_stamped hfour hmax (by omega), ?_⟩
            rw [← List.drop_drop]
            exact take_append_drop_length _ _

theorem Charbuf.Sending.remaining_eq_nil {w : Charbuf} (h : w.Sending)
    (hdone : w.solong < 0 ∨ w.sz ≤ w.solong) : w.remaining = [] := by
  cases h with
  | idle => rfl
  | @busy b k hfour hmax hk hstamped =>
      have hlength := length_stamped hfour
      show (stamped b).drop k = []
      apply List.drop_eq_nil_of_le
      dsimp only at hdone
      omega

/-! ### What a read collects -/

theorem got_append_rest (wire : List UInt8) (want : Nat) (r : Received) :
    (read wire want r).got ++ (read wire want r).rest = wire := by
  cases r with
  | bytes n => exact List.take_append_drop _ _
  | eof again => rfl
  | again => rfl
  | failed => rfl

theorem length_got_le (wire : List UInt8) (want : Nat) (r : Received) :
    (read wire want r).got.length ≤ want := by
  cases r with
  | bytes n =>
      show (wire.take (min n want)).length ≤ want
      rw [List.length_take]
      omega
  | eof again => exact Nat.zero_le _
  | again => exact Nat.zero_le _
  | failed => exact Nat.zero_le _

theorem n_eq_length_got {wire : List UInt8} {want : Nat} {r : Received}
    (h : 0 < (read wire want r).n) : (read wire want r).n = (read wire want r).got.length := by
  cases r with
  | bytes n => rfl
  | eof again => cases h
  | again => cases h
  | failed => cases h

theorem rest_eq_of_n_le {wire : List UInt8} {want : Nat} {r : Received}
    (h : (read wire want r).n ≤ 0) : (read wire want r).rest = wire := by
  have happend := got_append_rest wire want r
  cases r with
  | bytes n =>
      have hgot : (read wire want (.bytes n)).got = [] := by
        apply List.eq_nil_of_length_eq_zero
        have hn : (read wire want (.bytes n)).n = (read wire want (.bytes n)).got.length := rfl
        omega
      rwa [hgot] at happend
  | eof again => rfl
  | again => rfl
  | failed => rfl

/-- `rpdu_` of a connection that is alive: free, or the beginning of a PDU with its size. -/
inductive Charbuf.Receiving : Charbuf → Prop
  | idle : Receiving .empty
  | busy {b : List UInt8} (hfour : 4 ≤ b.length) (hle : (b.length : Int) ≤ ntohl (b.take 4)) :
      Receiving ⟨some b, ntohl (b.take 4), b.length⟩

theorem Charbuf.Receiving.eq_of_buf {w : Charbuf} {b : List UInt8} (h : w.Receiving)
    (hb : w.buf = some b) : w = ⟨some b, ntohl (b.take 4), b.length⟩ ∧ 4 ≤ b.length := by
  cases h with
  | idle => cases hb
  | busy hfour hle =>
      cases hb
      exact ⟨rfl, hfour⟩

/-- What has been read. -/
def Charbuf.bytes (w : Charbuf) : List UInt8 := w.buf.getD []

/-- A read moves bytes from the stream to the buffer, up to the end of the PDU. -/
theorem readBody_cases {b f wire wire' : List UInt8} {w' : Charbuf} {r : Received} {succ : Bool}
    (hf : IsFrame f) (hfour : 4 ≤ b.length) (hsize : b.take 4 = f.take 4)
    (hle : b.length ≤ f.length)
    (h : readBody ⟨some b, ntohl (b.take 4), b.length⟩ wire r = (succ, w', wire')) :
    succ = true ∧ w'.Receiving ∧ w'.bytes ++ wire' = b ++ wire ∨ succ = false ∧ w' = .empty := by
  have hsz : ntohl (b.take 4) = f.length := by rw [hsize, hf.ntohl_take]
  have hwant : sizeT (ntohl (b.take 4) - b.length) = f.length - b.length := by
    rw [hsz, ← Int.ofNat_sub hle]
    have hlt := hf.length_lt
    exact sizeT_natCast (by omega)
  have hbusy : Charbuf.Receiving ⟨some b, ntohl (b.take 4), b.length⟩ :=
    .busy hfour (by rw [hsz]; exact Int.ofNat_le.mpr hle)
  unfold readBody at h
  dsimp only at h
  rw [hwant] at h
  split_ifs at h with hn hagain
  · cases h
    exact .inl ⟨rfl, hbusy, by rw [rest_eq_of_n_le hn]; rfl⟩
  · cases h
    exact .inr ⟨rfl, rfl⟩
  · cases h
    have hgot := length_got_le wire (f.length - b.length) r
    have happend := got_append_rest wire (f.length - b.length) r
    rw [n_eq_length_got (Int.not_le.mp hn)]
    generalize (read wire (f.length - b.length) r).got = got at *
    have htake : (b ++ got).take 4 = b.take 4 := List.take_append_of_le_length hfour
    have hmore : Charbuf.Receiving
        ⟨some (b ++ got), ntohl ((b ++ got).take 4), (b ++ got).length⟩ := by
      refine .busy ?_ ?_
      · rw [List.length_append]
        omega
      · rw [htake, hsz, List.length_append]
        omega
    rw [htake, List.length_append, Int.natCast_add] at hmore
    refine .inl ⟨rfl, hmore, ?_⟩
    show b ++ got ++ _ = b ++ wire
    rw [List.append_assoc, happend]

theorem readpdu_cases {next : List (List UInt8)} {wire wire' rest : List UInt8} {w w' : Charbuf}
    {size body : Received} {succ : Bool} (hnext : ∀ f ∈ next, IsFrame f) (hw : w.Receiving)
    (hstream : w.bytes ++ wire ++ rest = next.flatten)
    (h : readpdu w wire size body = some (succ, w', wire')) :
    succ = true ∧ w'.Receiving ∧ w'.bytes ++ wire' = w.bytes ++ wire ∨
      succ = false ∧ w' = .empty := by
  cases hw with
  | idle =>
      have happend := got_append_rest wire 4 size
      have hbuf : ¬ Charbuf.empty.buf ≠ none := fun hne => hne rfl
      have hsz : Charbuf.empty.sz = 0 := rfl
      unfold readpdu at h
      rw [if_pos hsz] at h
      dsimp only at h
      rw [if_neg hbuf] at h
      split_ifs at h with hzero hneg hagain hshort hbig hnull
      · cases h
        exact .inr ⟨rfl, rfl⟩
      · cases h
        exact .inr ⟨rfl, rfl⟩
      · cases h
        exact .inr ⟨rfl, rfl⟩
      · cases h
        exact .inr ⟨rfl, rfl⟩
      · -- the size is that of the next PDU of the stream
        have hn : (read wire 4 size).n = 4 := not_not.mp hshort
        have hfour : (read wire 4 size).got.length = 4 := by
          have hlength := n_eq_length_got (by omega : 0 < (read wire 4 size).n)
          omega
        have hstream' : (read wire 4 size).got ++ ((read wire 4 size).rest ++ rest) =
            next.flatten := by
          rw [← List.append_assoc, happend]
          exact hstream
        generalize (read wire 4 size).got = got at *
        obtain ⟨f, more, -, hf, hsize, -⟩ := frame_of_bytes hnext hstream' (Nat.le_of_eq hfour.symm)
        have htake : got.take 4 = got := List.take_of_length_le (Nat.le_of_eq hfour)
        have hread : readBody
            ⟨some got, ntohl (got.take 4), got.length⟩ (read wire 4 size).rest body =
            (succ, w', wire') := by
          rw [htake, hfour]
          exact Option.some.inj h
        have hcases := readBody_cases hf (Nat.le_of_eq hfour.symm) hsize (hfour ▸ hf.four_le) hread
        rwa [happend] at hcases
  | @busy b hfour hle =>
      have hstream' : b ++ (wire ++ rest) = next.flatten := by
        rw [← List.append_assoc]
        exact hstream
      obtain ⟨f, more, -, hf, hsize, -⟩ := frame_of_bytes hnext hstream' hfour
      have hsz : ntohl (b.take 4) = f.length := by rw [hsize, hf.ntohl_take]
      have hpos := hf.four_le
      have hne : ntohl (b.take 4) ≠ 0 := by
        rw [hsz]
        omega
      unfold readpdu at h
      rw [if_neg hne] at h
      rw [hsz] at hle
      exact readBody_cases hf hfour hsize (Int.ofNat_le.mp hle) (Option.some.inj h)

/-! ### The stream between the two ends -/

/-- The PDUs that have not been consumed are what the receiver has collected, what is on the wire
    and what the sender has still to write.  Once an end is dead, the part on its side of the
    stream does not matter any more. -/
structure Link.Framed (s : Link) : Prop where
  sizes : ∀ b ∈ s.passed, rpcHeaderSz ≤ b.length ∧ b.length ≤ maxPdu
  sending : s.senderDead = false → s.wpdu.Sending
  flow : ∃ next, s.passed.map stamped = s.consumed ++ next ∧
    (s.receiverDead = false → s.rpdu.Receiving ∧ ∃ rest,
      s.rpdu.bytes ++ s.wire ++ rest = next.flatten ∧
        (s.senderDead = false → rest = s.wpdu.remaining))

namespace Link.Framed

variable {s : Link}

theorem isFrame (h : s.Framed) {next : List (List UInt8)}
    (hnext : s.passed.map stamped = s.consumed ++ next) : ∀ f ∈ next, IsFrame f := by
  intro f hf
  have hmem : f ∈ s.passed.map stamped := hnext ▸ List.mem_append_right _ hf
  obtain ⟨b, hb, rfl⟩ := List.mem_map.mp hmem
  exact isFrame_stamped (h.sizes b hb)

/-- A buffer is put into `wpdu_`, or refused by a dead connection. -/
theorem pass (h : s.Framed) {b : List UInt8} (hb : rpcHeaderSz ≤ b.length ∧ b.length ≤ maxPdu)
    (hfree : s.senderDead = false → s.wpdu.buf = none) (w : Charbuf)
    (hw : s.senderDead = false → w = ⟨some b, b.length, 0⟩) :
    ({ s with wpdu := w, passed := s.passed ++ [b] } : Link).Framed := by
  have hfour : 4 ≤ b.length := Nat.le_trans (by decide) hb.1
  refine ⟨?_, ?_, ?_⟩
  · exact List.forall_mem_append.mpr ⟨h.sizes, List.forall_mem_singleton.mpr hb⟩
  · intro halive
    show w.Sending
    rw [hw halive]
    exact .busy hfour hb.2 (Nat.zero_le _) fun hpos => absurd hpos (Nat.lt_irrefl 0)
  · obtain ⟨next, hnext, hflow⟩ := h.flow
    refine ⟨next ++ [stamped b], ?_, fun halive => ?_⟩
    · show (s.passed ++ [b]).map stamped = _
      rw [List.map_append, hnext, List.append_assoc]
      rfl
    · obtain ⟨hrpdu, rest, hstream, hrest⟩ := hflow halive
      refine ⟨hrpdu, rest ++ stamped b, ?_, fun hsender => ?_⟩
      · show s.rpdu.bytes ++ s.wire ++ (rest ++ stamped b) = _
        rw [List.flatten_append, ← hstream, List.append_assoc _ rest]
        simp
      · have hnil : rest = [] := by
          rw [hrest hsender, Charbuf.remaining, hfree hsender]
        show rest ++ stamped b = w.remaining
        rw [hnil, hw hsender]
        rfl

/-- A write. -/
theorem write (h : s.Framed) (halive : s.senderDead = false) {r : Written} {ok : Bool} {w : Charbuf}
    {bytes : List UInt8} (hw : writepdu s.wpdu r = some (ok, w, bytes)) :
    ({ s with senderDead := !ok, wpdu := w, wire := s.wire ++ bytes } : Link).Framed := by
  obtain ⟨next, hnext, hflow⟩ := h.flow
  rcases writepdu_cases (h.sending halive) hw with ⟨rfl, hsending, hbytes⟩ | ⟨rfl, rfl⟩
  · refine ⟨h.sizes, fun _ => hsending, next, hnext, fun hreceiver => ?_⟩
    obtain ⟨hrpdu, rest, hstream, hrest⟩ := hflow hreceiver
    refine ⟨hrpdu, w.remaining, ?_, fun _ => rfl⟩
    show s.rpdu.bytes ++ (s.wire ++ bytes) ++ w.remaining = next.flatten
    rw [← hstream, hrest halive, ← hbytes]
    simp only [List.append_assoc]
  · refine ⟨h.sizes, nofun, next, hnext, fun hreceiver => ?_⟩
    obtain ⟨hrpdu, rest, hstream, -⟩ := hflow hreceiver
    refine ⟨hrpdu, rest, ?_, nofun⟩
    show s.rpdu.bytes ++ (s.wire ++ []) ++ rest = next.flatten
    rw [List.append_nil]
    exact hstream

/-- The call that has used `wpdu_` returns. -/
theorem clear (h : s.Framed)
    (hdone : s.senderDead = true ∨ s.wpdu.solong < 0 ∨ s.wpdu.sz ≤ s.wpdu.solong) :
    ({ s with wpdu := .empty } : Link).Framed := by
  obtain ⟨next, hnext, hflow⟩ := h.flow
  refine ⟨h.sizes, fun _ => .idle, next, hnext, fun hreceiver => ?_⟩
  obtain ⟨hrpdu, rest, hstream, hrest⟩ := hflow hreceiver
  refine ⟨hrpdu, rest, hstream, fun halive => ?_⟩
  have hwritten : s.wpdu.solong < 0 ∨ s.wpdu.sz ≤ s.wpdu.solong := by
    rcases hdone with hdead | hdone
    · rw [hdead] at halive
      cases halive
    · exact hdone
  rw [hrest halive, (h.sending halive).remaining_eq_nil hwritten]
  rfl

theorem senderDies (h : s.Framed) : ({ s with senderDead := true } : Link).Framed := by
  obtain ⟨next, hnext, hflow⟩ := h.flow
  refine ⟨h.sizes, nofun, next, hnext, fun hreceiver => ?_⟩
  obtain ⟨hrpdu, rest, hstream, -⟩ := hflow hreceiver
  exact ⟨hrpdu, rest, hstream, nofun⟩

theorem receiverDies (h : s.Framed) : ({ s with receiverDead := true } : Link).Framed := by
  obtain ⟨next, hnext, -⟩ := h.flow
  exact ⟨h.sizes, h.sending, next, hnext, nofun⟩

/-- A read.  After a failed one there is no buffer that could be delivered. -/
theorem read (h : s.Framed) (halive : s.receiverDead = false) {size body : Received} {succ : Bool}
    {w : Charbuf} {wire : List UInt8}
    (hw : readpdu s.rpdu s.wire size body = some (succ, w, wire)) :
    ({ s with receiverDead := !succ, rpdu := w, wire := wire } : Link).Framed ∧
      (succ = false → w.buf = none) := by
  obtain ⟨next, hnext, hflow⟩ := h.flow
  obtain ⟨hrpdu, rest, hstream, hrest⟩ := hflow halive
  rcases readpdu_cases (h.isFrame hnext) hrpdu hstream hw with
    ⟨rfl, hreceiving, hbytes⟩ | ⟨rfl, rfl⟩
  · refine ⟨⟨h.sizes, h.sending, next, hnext, fun _ => ⟨hreceiving, rest, ?_, hrest⟩⟩, nofun⟩
    show w.bytes ++ wire ++ rest = next.flatten
    rw [hbytes]
    exact hstream
  · exact ⟨⟨h.sizes, h.sending, next, hnext, nofun⟩, fun _ => rfl⟩

/-- A buffer that is complete is the next PDU that was passed to `send`. -/
theorem deliver (h : s.Framed) (hdead : s.receiverDead = true → s.rpdu.buf = none) (takes : Bool) :
    (s.deliver takes).Framed := by
  unfold Link.deliver
  split
  case h_1 => exact h
  case h_2 b hb =>
    split_ifs with hcomplete
    · obtain ⟨next, hnext, hflow⟩ := h.flow
      have halive : s.receiverDead = false := by
        cases hreceiver : s.receiverDead with
        | false => rfl
        | true =>
            rw [hdead hreceiver] at hb
            cases hb
      obtain ⟨hrpdu, rest, hstream, hrest⟩ := hflow halive
      obtain ⟨heq, hfour⟩ := hrpdu.eq_of_buf hb
      have hsize : ntohl (b.take 4) = b.length := by
        have hsolong := hcomplete.1
        rwa [heq] at hsolong
      have hstream' : b ++ (s.wire ++ rest) = next.flatten := by
        rw [← hstream, heq, List.append_assoc]
        rfl
      obtain ⟨f, more, rfl, hf, htake, halign⟩ :=
        frame_of_bytes (h.isFrame hnext) hstream' hfour
      have hlength : b.length = f.length := by
        rw [htake, hf.ntohl_take] at hsize
        omega
      obtain ⟨rfl, hrestream⟩ := List.append_inj halign hlength
      refine ⟨h.sizes, h.sending, more, ?_, fun _ => ⟨.idle, rest, hrestream, hrest⟩⟩
      show s.passed.map stamped = s.consumed ++ [b] ++ more
      rw [hnext, List.append_assoc]
      rfl
    · exact h

end Link.Framed

theorem Link.framed_new : Link.new.Framed :=
  ⟨nofun, fun _ => .idle, [], rfl, fun _ => ⟨.idle, [], rfl, fun _ => rfl⟩⟩

theorem Link.Framed.step {s next : Link} {action : Action} (h : s.Framed)
    (hsized : Sized s action) (hstep : s.step action = some next) : next.Framed := by
  cases action with
  | send b r =>
      simp only [Link.step, Link.send] at hstep
      split_ifs at hstep with hdead hbusy
      · cases hstep
        exact h.pass hsized (fun halive => by simp [hdead] at halive) s.wpdu
          (fun halive => by simp [hdead] at halive)
      · obtain ⟨⟨ok, w, bytes⟩, hwrite, rfl⟩ := Option.map_eq_some_iff.mp hstep
        have hpassed := h.pass hsized (fun _ => not_not.mp hbusy) ⟨some b, b.length, 0⟩ fun _ => rfl
        have hwritten := hpassed.write (Bool.eq_false_iff.mpr hdead) hwrite
        dsimp only
        split_ifs with hdone
        · exact hwritten.clear (.inr (.inr (Int.le_of_eq hdone.2.symm)))
        · exact hwritten
  | sendReturns =>
      simp only [Link.step, Link.sendReturns] at hstep
      split_ifs at hstep with hdone
      cases hstep
      exact h.clear hdone.2
  | writeCb r =>
      simp only [Link.step, Link.writeCb] at hstep
      split_ifs at hstep with hdead hzero
      · cases hstep
        exact h
      · obtain ⟨⟨ok, w, bytes⟩, hwrite, rfl⟩ := Option.map_eq_some_iff.mp hstep
        exact h.write (Bool.eq_false_iff.mpr hdead) hwrite
  | readCb size body takes =>
      simp only [Link.step, Link.readCb] at hstep
      split_ifs at hstep with hdead hread
      · cases hstep
        exact h
      · obtain ⟨⟨succ, w, wire⟩, hreadpdu, rfl⟩ := Option.map_eq_some_iff.mp hstep
        obtain ⟨hframed, hnone⟩ := h.read (Bool.eq_false_iff.mpr hdead) hreadpdu
        refine hframed.deliver (fun hfailed => hnone ?_) takes
        simpa using hfailed
      · cases hstep
        exact h.deliver (fun hreceiver => absurd hreceiver hdead) takes
  | senderDies =>
      cases hstep
      exact h.senderDies
  | receiverDies =>
      cases hstep
      exact h.receiverDies

/-- The buffers that `got_pdu` has taken are the first ones that were passed to `send`, in order
    and byte by byte, with the size that `writepdu` stamps into them. -/
theorem consumed_prefix_of_passed {s : Link} (h : linkSystem.Reach Sized s) :
    s.consumed <+: s.passed.map stamped := by
  have hframed : s.Framed := by
    refine h.invariant (P := Link.Framed) ?_ ?_
    · rintro start rfl
      exact Link.framed_new
    · intro state next action hstate hsized hstep
      exact hstate.step hsized hstep
  obtain ⟨next, hnext, -⟩ := hframed.flow
  exact ⟨next, hnext.symm⟩

/-- The first PDU is written in three parts, with a write that is refused in between; its size is
    read before the rest is there, and it is refused once by `got_pdu`. -/
def twoPdus : List Action :=
  [.send (List.replicate 25 7) (.wrote 2), .writeCb .again, .writeCb (.wrote 10),
    .readCb (.bytes 4) .again true, .writeCb (.wrote 100), .sendReturns,
    .send (List.replicate 24 9) (.wrote 100), .readCb .failed (.bytes 5) true,
    .readCb .failed (.bytes 100) false, .readCb .failed .failed true,
    .readCb (.bytes 4) (.bytes 100) true]

theorem consumed_prefix_twoPdus :
    ∃ s : Link, linkSystem.Reach Sized s ∧
      s.consumed = [stamped (List.replicate 25 7), stamped (List.replicate 24 9)] ∧
      s.consumed <+: s.passed.map stamped := by
  obtain ⟨s, hreach, hconsumed⟩ : ∃ s, linkSystem.Reach Sized s ∧
      s.consumed = [stamped (List.replicate 25 7), stamped (List.replicate 24 9)] :=
    System.Reach.of_exec (fun s action => decide (Sized s action)) twoPdus rfl
      (fun _ _ h => of_decide_eq_true h) (by decide +kernel)
  exact ⟨s, hreach, hconsumed, consumed_prefix_of_passed hreach⟩

end DistributedLab.Channel
