import DistributedLab.Marshall
import DistributedLab.Transition

/-!
# The buffer of a marshaller

The marshallers of `Marshall` have positions of any size and memory that is always there.  Here
`_capa` and `_ind` are the `int`s that they are in the source, the buffer has the size that was
asked for, and a byte that does not fall into it is an error.  `rawbyte` doubles the capacity when
the buffer is full; `rawbytes` doubles it, or adds the number of bytes if that is more, and looks
only once whether they fit.  One of the two is always enough.

The capacity is at most doubled beyond what is written.  So it stays an `int` as long as the
header and the bytes do not go beyond a gigabyte.
-/

namespace DistributedLab.Wire

open Transition

/-! ### The class -/

/-- `class marshall`.  `allocated` is the size of the memory at `buf`. -/
structure RawMarshall where
  buf : Nat → UInt8
  allocated : Nat
  capa : Int32
  ind : Int32

def RawMarshall.new (memory : Nat → UInt8) : RawMarshall where
  buf := memory
  allocated := defaultRpcSz
  capa := Int32.ofNat defaultRpcSz
  ind := Int32.ofNat rpcHeaderSz

/-- `_buf = realloc(_buf, _capa)`.  What is added holds anything.  The new capacity is an `int` that
    wraps around; a negative one is more than can be allocated when it is taken for a `size_t`, and
    `VERIFY(_buf)` ends the process. -/
def RawMarshall.grow (r : RawMarshall) (junk : Nat → UInt8) (capa : Int32) : Option RawMarshall :=
  if 0 ≤ capa then
    some { r with
      buf := fun i => if i < r.allocated then r.buf i else junk i
      allocated := capa.toInt.toNat
      capa := capa }
  else none

/-- The bytes are stored from `_ind` on, if this is inside the memory. -/
def RawMarshall.store (r : RawMarshall) (p : List UInt8) : Option RawMarshall :=
  if 0 ≤ r.ind.toInt ∧ r.ind.toInt + p.length ≤ r.allocated then
    some { r with
      buf := overwrite r.buf r.ind.toInt.toNat p
      ind := r.ind + Int32.ofNat p.length }
  else none

def RawMarshall.rawbyte (r : RawMarshall) (junk : Nat → UInt8) (x : UInt8) : Option RawMarshall :=
  (if r.ind ≥ r.capa then r.grow junk (r.capa * 2) else some r).bind (·.store [x])

def RawMarshall.rawbytes (r : RawMarshall) (junk : Nat → UInt8) (p : List UInt8) :
    Option RawMarshall :=
  let n := Int32.ofNat p.length
  (if r.ind + n > r.capa then r.grow junk (if r.capa > n then 2 * r.capa else r.capa + n)
    else some r).bind (·.store p)

/-- The `std::string` that is made of the bytes from the header to `_ind`. -/
def RawMarshall.getContent (r : RawMarshall) : List UInt8 :=
  (List.range (r.ind - Int32.ofNat rpcHeaderSz).toInt.toNat).map fun i => r.buf (rpcHeaderSz + i)

/-! A call moves `_ind` and writes bytes in several steps. -/

inductive Action where
  | rawbyte (x : UInt8)
  | rawbytes (p : List UInt8)
  | setInd (k : Int32)

def Action.perform (junk : Nat → UInt8) (r : RawMarshall) : Action → Option RawMarshall
  | .rawbyte x => r.rawbyte junk x
  | .rawbytes p => r.rawbytes junk p
  | .setInd k => some { r with ind := k }

def pack (x : Int32) : List Action :=
  [.rawbyte ((x >>> 24) &&& 0xff).toUInt32.toUInt8, .rawbyte ((x >>> 16) &&& 0xff).toUInt32.toUInt8,
    .rawbyte ((x >>> 8) &&& 0xff).toUInt32.toUInt8, .rawbyte (x &&& 0xff).toUInt32.toUInt8]

def packHeader (savedSz : Int32) (xs : List Int32) : List Action :=
  .setInd (Int32.ofNat rpcSzSize) :: (xs.flatMap pack ++ [.setInd savedSz])

inductive Call where
  | rawbyte (x : UInt8)
  | rawbytes (p : List UInt8)
  | packReqHeader (h : ReqHeader)
  | packReplyHeader (h : ReplyHeader)

def Call.actions (ind : Int32) : Call → List Action
  | .rawbyte x => [.rawbyte x]
  | .rawbytes p => [.rawbytes p]
  | .packReqHeader h =>
      packHeader ind [h.xid, h.proc, h.cltNonce.toInt32, h.srvNonce.toInt32, h.xidRep]
  | .packReplyHeader h => packHeader ind [h.xid, h.ret]

/-- The result of an action is the marshaller that it leaves, so that a run shows all of them. -/
def passes (junk : Nat → UInt8) (r : RawMarshall) (action : Action) :
    Option (RawMarshall × RawMarshall) :=
  (action.perform junk r).map fun next => (next, next)

def Call.onBuffer (r : RawMarshall) (call : Call × (Nat → UInt8)) :
    Option (List RawMarshall × RawMarshall) :=
  results (passes call.2) r (call.1.actions r.ind)

/-! ### Buffers and marshallers -/

/-- The bytes up to `k` are those of `buf`, and the positions are the numbers given. -/
structure RawMarshall.Mirrors (r : RawMarshall) (buf : Nat → UInt8) (capa ind k : Nat) : Prop where
  capa_eq : r.capa = Int32.ofNat capa
  ind_eq : r.ind = Int32.ofNat ind
  allocated_eq : r.allocated = capa
  capa_lt : capa < 2 ^ 31
  ind_le : ind ≤ k
  known_le : k ≤ capa
  agree : ∀ i < k, r.buf i = buf i

theorem ofNat_lt_ofNat {a b : Nat} (ha : a < 2 ^ 31) (hb : b < 2 ^ 31) :
    Int32.ofNat a < Int32.ofNat b ↔ a < b := by
  rw [Int32.lt_iff_toInt_lt, Int32.toInt_ofNat_of_lt ha, Int32.toInt_ofNat_of_lt hb]
  exact Int.ofNat_lt

theorem ofNat_le_ofNat {a b : Nat} (ha : a < 2 ^ 31) (hb : b < 2 ^ 31) :
    Int32.ofNat a ≤ Int32.ofNat b ↔ a ≤ b := by
  rw [Int32.le_iff_toInt_le, Int32.toInt_ofNat_of_lt ha, Int32.toInt_ofNat_of_lt hb]
  exact Int.ofNat_le

section Mirrors

variable {r : RawMarshall} {buf : Nat → UInt8} {capa ind k : Nat}

theorem RawMarshall.Mirrors.grow (h : r.Mirrors buf capa ind k) (junk : Nat → UInt8) {more : Nat}
    (hle : capa ≤ more) (hlt : more < 2 ^ 31) :
    ∃ next, r.grow junk (Int32.ofNat more) = some next ∧ next.Mirrors buf more ind k := by
  have hvalue := Int32.toInt_ofNat_of_lt hlt
  have hpos : 0 ≤ Int32.ofNat more := by
    rw [Int32.le_iff_toInt_le, hvalue]
    exact Int.natCast_nonneg _
  refine ⟨_, if_pos hpos, rfl, h.ind_eq, ?_, hlt, h.ind_le, h.known_le.trans hle, fun i hi => ?_⟩
  · simp [hvalue]
  · have hold : i < r.allocated := by
      rw [h.allocated_eq]
      exact Nat.lt_of_lt_of_le hi h.known_le
    exact (if_pos hold).trans (h.agree i hi)

theorem RawMarshall.Mirrors.store (h : r.Mirrors buf capa ind k) {p : List UInt8}
    (hfits : ind + p.length ≤ capa) :
    ∃ next, r.store p = some next ∧
      next.Mirrors (overwrite buf ind p) capa (ind + p.length) (max k (ind + p.length)) := by
  have hlt := h.capa_lt
  have hind : r.ind.toInt = ind := by
    rw [h.ind_eq]
    exact Int32.toInt_ofNat_of_lt (by omega)
  have hinside : 0 ≤ r.ind.toInt ∧ r.ind.toInt + p.length ≤ r.allocated := by
    rw [hind, h.allocated_eq]
    omega
  refine ⟨_, if_pos hinside, h.capa_eq, ?_, h.allocated_eq, hlt, Nat.le_max_right _ _,
    Nat.max_le.mpr ⟨h.known_le, hfits⟩, fun i hi => ?_⟩
  · rw [h.ind_eq, Int32.ofNat_add]
  · have hplace : r.ind.toInt.toNat = ind := by rw [hind, Int.toNat_natCast]
    simp only [hplace]
    by_cases hbefore : i < k
    · exact overwrite_congr (h.agree i hbefore)
    · -- the place is one of those that are written now
      have hle := h.ind_le
      obtain ⟨j, rfl⟩ : ∃ j, i = ind + j := ⟨i - ind, by omega⟩
      have hj : j < p.length := by omega
      rw [overwrite_add hj, overwrite_add hj]

/-- The capacity is raised if the test says so, and then the bytes have room. -/
theorem RawMarshall.Mirrors.write (h : r.Mirrors buf capa ind k) (junk : Nat → UInt8)
    {p : List UInt8} {full : Prop} [Decidable full] {more : Nat}
    (hle : capa ≤ if full then more else capa) (hlt : (if full then more else capa) < 2 ^ 31)
    (hfits : ind + p.length ≤ if full then more else capa) :
    ∃ next, (if full then r.grow junk (Int32.ofNat more) else some r).bind (·.store p) = some next ∧
      next.Mirrors (overwrite buf ind p) (if full then more else capa) (ind + p.length)
        (max k (ind + p.length)) := by
  by_cases hfull : full
  · simp only [if_pos hfull] at hle hlt hfits ⊢
    obtain ⟨larger, hgrow, hlarger⟩ := h.grow junk hle hlt
    obtain ⟨next, hstore, hnext⟩ := hlarger.store hfits
    exact ⟨next, by rw [hgrow]; exact hstore, hnext⟩
  · simp only [if_neg hfull] at hfits ⊢
    exact h.store hfits

end Mirrors

section Marshallers

variable {r : RawMarshall} {m : Marshall} {k : Nat}

theorem RawMarshall.Mirrors.rawbyte (h : r.Mirrors m.buf m.capa m.ind k) (junk : Nat → UInt8)
    (x : UInt8) (hroom : m.ind + 1 ≤ 2 ^ 30) :
    ∃ next, r.rawbyte junk x = some next ∧
      next.Mirrors (m.rawbyte x).buf (m.rawbyte x).capa (m.rawbyte x).ind (max k (m.ind + 1)) := by
  have hcapa := h.capa_lt
  have hind := m.ind_le
  have hfull : r.ind ≥ r.capa ↔ m.ind ≥ m.capa := by
    rw [h.ind_eq, h.capa_eq]
    exact ofNat_le_ofNat hcapa (by omega)
  have hdouble : r.capa * 2 = Int32.ofNat (m.capa * 2) := by
    rw [h.capa_eq, Int32.ofNat_mul]
    rfl
  have hlt : (m.rawbyte x).capa < 2 ^ 31 := by
    unfold Marshall.rawbyte
    dsimp only
    split <;> omega
  unfold RawMarshall.rawbyte
  simp only [hfull, hdouble]
  rw [Marshall.rawbyte, update_eq_overwrite]
  exact h.write junk (m.capa_le_rawbyte x) hlt (m.rawbyte x).ind_le

theorem RawMarshall.Mirrors.rawbytes (h : r.Mirrors m.buf m.capa m.ind k) (junk : Nat → UInt8)
    (p : List UInt8) (hroom : m.ind + p.length ≤ 2 ^ 30) :
    ∃ next, r.rawbytes junk p = some next ∧
      next.Mirrors (m.rawbytes p).buf (m.rawbytes p).capa (m.rawbytes p).ind
        (max k (m.ind + p.length)) := by
  have hcapa := h.capa_lt
  have hfull : r.ind + Int32.ofNat p.length > r.capa ↔ m.ind + p.length > m.capa := by
    rw [h.ind_eq, h.capa_eq, ← Int32.ofNat_add]
    exact ofNat_lt_ofNat hcapa (by omega)
  have hmore : (if r.capa > Int32.ofNat p.length then 2 * r.capa else r.capa + Int32.ofNat p.length)
      = Int32.ofNat (if m.capa > p.length then 2 * m.capa else m.capa + p.length) := by
    rw [h.capa_eq, apply_ite Int32.ofNat, Int32.ofNat_add, Int32.ofNat_mul]
    exact if_congr (ofNat_lt_ofNat (by omega) hcapa) rfl rfl
  have hle : m.capa ≤ (m.rawbytes p).capa := by
    unfold Marshall.rawbytes
    dsimp only
    split_ifs <;> omega
  -- a capacity that is too small is below a gigabyte, and there are no more bytes than that
  have hlt : (m.rawbytes p).capa < 2 ^ 31 := by
    unfold Marshall.rawbytes
    dsimp only
    split_ifs <;> omega
  unfold RawMarshall.rawbytes
  simp only [hfull, hmore]
  exact h.write junk hle hlt (m.rawbytes p).ind_le

theorem RawMarshall.Mirrors.seek (h : r.Mirrors m.buf m.capa m.ind k) {j : Nat} (hj : j ≤ k)
    (hcapa : j ≤ m.capa) :
    { r with ind := Int32.ofNat j }.Mirrors (m.seek j hcapa).buf (m.seek j hcapa).capa j k where
  capa_eq := h.capa_eq
  ind_eq := rfl
  allocated_eq := h.allocated_eq
  capa_lt := h.capa_lt
  ind_le := hj
  known_le := h.known_le
  agree := h.agree

theorem RawMarshall.Mirrors.getContent (h : r.Mirrors m.buf m.capa m.ind m.ind)
    (hheader : rpcHeaderSz ≤ m.ind) : r.getContent = m.getContent := by
  have hlt := h.capa_lt
  have hle := m.ind_le
  have hlength : (r.ind - Int32.ofNat rpcHeaderSz).toInt.toNat = m.ind - rpcHeaderSz := by
    rw [h.ind_eq, ← Int32.ofNat_sub _ _ hheader, Int32.toInt_ofNat_of_lt (by omega),
      Int.toNat_natCast]
  unfold RawMarshall.getContent Marshall.getContent
  rw [hlength]
  apply List.ext_getElem
  · simp [m.length_takeBuf]
  · intro i hi _
    simp only [List.length_map, List.length_range] at hi
    simpa [Marshall.takeBuf] using h.agree (rpcHeaderSz + i) (by omega)

end Marshallers

/-! ### Actions -/

/-- The position lies in the buffer, and `_capa` is its size. -/
structure RawMarshall.InBounds (r : RawMarshall) : Prop where
  ind_nonneg : 0 ≤ r.ind
  ind_le : r.ind ≤ r.capa
  allocated_eq : r.capa.toInt = r.allocated

theorem RawMarshall.Mirrors.inBounds {r : RawMarshall} {buf : Nat → UInt8} {capa ind k : Nat}
    (h : r.Mirrors buf capa ind k) : r.InBounds := by
  have hlt := h.capa_lt
  have hind : ind ≤ capa := h.ind_le.trans h.known_le
  refine ⟨?_, ?_, ?_⟩
  · rw [h.ind_eq]
    exact (ofNat_le_ofNat (a := 0) (by decide) (by omega)).mpr (Nat.zero_le _)
  · rw [h.ind_eq, h.capa_eq]
    exact (ofNat_le_ofNat (by omega) hlt).mpr hind
  · rw [h.capa_eq, h.allocated_eq]
    exact Int32.toInt_ofNat_of_lt hlt

/-- The actions lead to a buffer that mirrors `m`, and none on the way is out of bounds. -/
def Leads (junk : Nat → UInt8) (r : RawMarshall) (actions : List Action) (m : Marshall) (k : Nat) :
    Prop :=
  ∃ states final, results (passes junk) r actions = some (states, final) ∧
    (∀ s ∈ states, s.InBounds) ∧ final.Mirrors m.buf m.capa m.ind k

section Actions

variable {junk : Nat → UInt8} {r : RawMarshall} {m : Marshall} {k : Nat}

theorem Leads.nil (h : r.Mirrors m.buf m.capa m.ind k) : Leads junk r [] m k :=
  ⟨[], r, rfl, List.forall_mem_nil _, h⟩

theorem Leads.cons {action : Action} {actions : List Action} {next : RawMarshall}
    (hperform : action.perform junk r = some next) (hnext : next.InBounds)
    (h : Leads junk next actions m k) : Leads junk r (action :: actions) m k := by
  obtain ⟨states, final, hrun, hstates, hfinal⟩ := h
  have hpass : passes junk r action = some (next, next) := by rw [passes, hperform, Option.map_some]
  exact ⟨next :: states, final, results_cons hpass hrun, List.forall_mem_cons.mpr ⟨hnext, hstates⟩,
    hfinal⟩

theorem Leads.append {actions more : List Action} {m' : Marshall} {k' : Nat}
    (h : Leads junk r actions m k)
    (hmore : ∀ next : RawMarshall, next.Mirrors m.buf m.capa m.ind k →
      Leads junk next more m' k') :
    Leads junk r (actions ++ more) m' k' := by
  obtain ⟨states, next, hrun, hstates, hnext⟩ := h
  obtain ⟨later, final, hlater, hbounds, hfinal⟩ := hmore next hnext
  exact ⟨states ++ later, final, results_append hrun hlater,
    List.forall_mem_append.mpr ⟨hstates, hbounds⟩, hfinal⟩

/-- Bytes that are written before position `k` leave it the end of what is known. -/
theorem leads_bytes {bytes : List UInt8} (h : r.Mirrors m.buf m.capa m.ind k)
    (hbefore : m.ind + bytes.length ≤ k) (hk : k ≤ 2 ^ 30) :
    Leads junk r (bytes.map .rawbyte) (bytes.foldl Marshall.rawbyte m) k := by
  induction bytes generalizing r m with
  | nil => exact .nil h
  | cons x bytes ih =>
      rw [List.length_cons] at hbefore
      obtain ⟨next, hperform, hnext⟩ := h.rawbyte junk x (by omega)
      rw [Nat.max_eq_left (by omega)] at hnext
      have hrest : (m.rawbyte x).ind + bytes.length ≤ k := by
        show m.ind + 1 + bytes.length ≤ k
        omega
      exact .cons hperform hnext.inBounds (ih hnext hrest)

theorem flatMap_pack (xs : List Int32) : xs.flatMap pack = (headerBytes xs).map .rawbyte := by
  rw [headerBytes, List.map_flatMap]
  congr 1
  funext x
  rw [bytes32_toUInt32]
  rfl

theorem foldl_pack (m : Marshall) (xs : List Int32) :
    xs.foldl Marshall.pack m = (headerBytes xs).foldl Marshall.rawbyte m := by
  rw [headerBytes, List.foldl_flatMap]
  congr 1
  funext m x
  rw [bytes32_toUInt32]
  rfl

theorem leads_packHeader {xs : List Int32} (h : r.Mirrors m.buf m.capa m.ind m.ind)
    (hxs : rpcSzSize + 4 * xs.length ≤ rpcHeaderSz) (hheader : rpcHeaderSz ≤ m.ind)
    (hroom : m.ind ≤ 2 ^ 30) :
    Leads junk r (packHeader r.ind xs) (m.packHeader xs) m.ind := by
  have hstart : rpcSzSize ≤ m.ind := by omega
  have hback := h.seek hstart (hstart.trans m.ind_le)
  have hints : Leads junk { r with ind := Int32.ofNat rpcSzSize } (xs.flatMap pack)
      (xs.foldl Marshall.pack (m.seek rpcSzSize (hstart.trans m.ind_le))) m.ind := by
    rw [flatMap_pack, foldl_pack]
    apply leads_bytes hback ?_ hroom
    rw [length_headerBytes]
    exact hxs.trans hheader
  apply Leads.cons rfl hback.inBounds
  apply hints.append
  intro next hnext
  -- the saved position is behind everything that the header needs
  have hsaved := hnext.seek (Nat.le_refl m.ind) (m.packHeader xs).ind_le
  rw [← h.ind_eq] at hsaved
  exact .cons rfl hsaved.inBounds (.nil hsaved)

end Actions

/-! ### Calls -/

/-- The bytes that a call adds to the content. -/
def Call.bytes : Call → List UInt8
  | .rawbyte x => [x]
  | .rawbytes p => p
  | .packReqHeader _ => []
  | .packReplyHeader _ => []

def written (calls : List (Call × (Nat → UInt8))) : List UInt8 :=
  calls.flatMap fun call => call.1.bytes

theorem length_written_cons (call : Call × (Nat → UInt8)) (calls : List (Call × (Nat → UInt8))) :
    (written (call :: calls)).length = call.1.bytes.length + (written calls).length :=
  List.length_append

def Call.onMarshall (m : Marshall) : Call → Marshall
  | .rawbyte x => m.rawbyte x
  | .rawbytes p => m.rawbytes p
  | .packReqHeader h => m.packReqHeader h
  | .packReplyHeader h => m.packReplyHeader h

theorem Call.ind_onMarshall (m : Marshall) (call : Call) :
    (call.onMarshall m).ind = m.ind + call.bytes.length := by
  cases call with
  | rawbyte x => rfl
  | rawbytes p => rfl
  | packReqHeader h => rfl
  | packReplyHeader h => rfl

theorem Call.getContent_onMarshall {m : Marshall} (call : Call) (hheader : rpcHeaderSz ≤ m.ind) :
    (call.onMarshall m).getContent = m.getContent ++ call.bytes := by
  cases call with
  | rawbyte x => exact (writes_rawbyte x).getContent_append hheader
  | rawbytes p => exact (writes_rawbytes p).getContent_append hheader
  | packReqHeader h =>
      rw [Call.bytes, List.append_nil]
      exact m.getContent_packHeader (Nat.le_refl _)
  | packReplyHeader h =>
      rw [Call.bytes, List.append_nil]
      exact m.getContent_packHeader (by decide : rpcSzSize + 4 * 2 ≤ rpcHeaderSz)

/-- A call does on the buffer what it does on a marshaller. -/
theorem Call.leads_actions {r : RawMarshall} {m : Marshall} (call : Call) (junk : Nat → UInt8)
    (h : r.Mirrors m.buf m.capa m.ind m.ind) (hheader : rpcHeaderSz ≤ m.ind)
    (hroom : m.ind + call.bytes.length ≤ 2 ^ 30) :
    Leads junk r (call.actions r.ind) (call.onMarshall m) (call.onMarshall m).ind := by
  cases call with
  | rawbyte x =>
      obtain ⟨next, hperform, hnext⟩ := h.rawbyte junk x hroom
      rw [Nat.max_eq_right (Nat.le_add_right _ _)] at hnext
      exact .cons hperform hnext.inBounds (.nil hnext)
  | rawbytes p =>
      obtain ⟨next, hperform, hnext⟩ := h.rawbytes junk p hroom
      rw [Nat.max_eq_right (Nat.le_add_right _ _)] at hnext
      exact .cons hperform hnext.inBounds (.nil hnext)
  | packReqHeader header => exact leads_packHeader h (Nat.le_refl _) hheader hroom
  | packReplyHeader header =>
      exact leads_packHeader h (by decide : rpcSzSize + 4 * 2 ≤ rpcHeaderSz) hheader hroom

/-- What holds between two calls: the buffer mirrors a marshaller whose content, with what the
    calls still to come write, is `content`. -/
def Pending (content : List UInt8) (r : RawMarshall) (calls : List (Call × (Nat → UInt8))) : Prop :=
  ∃ m : Marshall, r.Mirrors m.buf m.capa m.ind m.ind ∧ rpcHeaderSz ≤ m.ind ∧
    m.ind + (written calls).length ≤ 2 ^ 30 ∧ m.getContent ++ written calls = content

theorem Pending.step {content : List UInt8} {r : RawMarshall} {call : Call × (Nat → UInt8)}
    {calls : List (Call × (Nat → UInt8))} (h : Pending content r (call :: calls)) :
    ∃ states next, Call.onBuffer r call = some (states, next) ∧ (∀ s ∈ states, s.InBounds) ∧
      Pending content next calls := by
  obtain ⟨m, hmirrors, hheader, hroom, hcontent⟩ := h
  rw [length_written_cons] at hroom
  obtain ⟨states, next, hrun, hstates, hnext⟩ :=
    call.1.leads_actions call.2 hmirrors hheader (by omega)
  refine ⟨states, next, hrun, hstates, call.1.onMarshall m, hnext, ?_, ?_, ?_⟩
  · rw [call.1.ind_onMarshall]
    omega
  · rw [call.1.ind_onMarshall]
    omega
  · rw [call.1.getContent_onMarshall hheader, List.append_assoc]
    exact hcontent

theorem mirrors_new (memory : Nat → UInt8) : (RawMarshall.new memory).Mirrors
    (Marshall.new memory).buf (Marshall.new memory).capa (Marshall.new memory).ind
    (Marshall.new memory).ind where
  capa_eq := rfl
  ind_eq := rfl
  allocated_eq := rfl
  capa_lt := (by decide : defaultRpcSz < 2 ^ 31)
  ind_le := Nat.le_refl _
  known_le := (Marshall.new memory).ind_le
  agree _ _ := rfl

theorem pending_new (memory : Nat → UInt8) {calls : List (Call × (Nat → UInt8))}
    (h : rpcHeaderSz + (written calls).length ≤ 2 ^ 30) :
    Pending (written calls) (.new memory) calls := by
  have hempty : (Marshall.new memory).getContent = [] := Writes.id.getContent memory
  exact ⟨Marshall.new memory, mirrors_new memory, Nat.le_refl _, h, by rw [hempty, List.nil_append]⟩

/-- **Growth of the buffer.**  Whatever is written, and whenever a header is packed, the calls
    return, so that no byte is stored outside the buffer; the write position stays inside it, its
    size is the capacity, and the content is what was written.  The header counts for the
    gigabyte. -/
theorem growth_within_gigabyte (memory : Nat → UInt8) (calls : List (Call × (Nat → UInt8)))
    (h : rpcHeaderSz + (written calls).length ≤ 2 ^ 30) :
    ∃ states r, results Call.onBuffer (RawMarshall.new memory) calls = some (states, r) ∧
      (∀ s ∈ states.flatten, s.InBounds) ∧ r.InBounds ∧ r.getContent = written calls := by
  obtain ⟨states, r, hrun, hstates, m, hmirrors, hheader, _, hcontent⟩ :=
    results_progress (fun _ _ _ => Pending.step) (pending_new memory h)
  refine ⟨states, r, hrun, ?_, hmirrors.inBounds, ?_⟩
  · intro s hs
    obtain ⟨passed, hpassed, hmem⟩ := List.mem_flatten.mp hs
    exact hstates passed hpassed s hmem
  · rw [hmirrors.getContent hheader, ← hcontent]
    exact (List.append_nil _).symm

def noJunk : Nat → UInt8 := fun _ => 0

def zeros (n : Nat) : Call := .rawbytes (List.replicate n 0)

theorem length_zeros (n : Nat) : (zeros n).bytes.length = n := List.length_replicate

/-- The last byte finds the first buffer full. -/
def replyAndOneMore : List (Call × (Nat → UInt8)) :=
  [(zeros 1000, noJunk), (.packReplyHeader ⟨1, 0⟩, noJunk), (.rawbyte 8, noJunk)]

theorem growth_of_replyAndOneMore :
    rpcHeaderSz + (written replyAndOneMore).length ≤ 2 ^ 30 ∧
    ∃ states r, results Call.onBuffer (RawMarshall.new noJunk) replyAndOneMore = some (states, r) ∧
      (∀ s ∈ states.flatten, s.InBounds) ∧ r.InBounds ∧
      r.getContent = written replyAndOneMore := by
  have hroom : rpcHeaderSz + (written replyAndOneMore).length ≤ 2 ^ 30 := by
    rw [replyAndOneMore, length_written_cons, length_zeros]
    show 24 + (1000 + 1) ≤ 2 ^ 30
    omega
  exact ⟨hroom, growth_within_gigabyte noJunk replyAndOneMore hroom⟩

/-! Without the header in the count, the capacity can be a gigabyte already when it has to be
doubled.  The first of these calls makes it so and leaves room for a thousand bytes; the second
writes one more. -/

def overflowing : List (Call × (Nat → UInt8)) :=
  [(zeros (2 ^ 30 - 1024), noJunk), (zeros 1001, noJunk)]

/-- Bytes that are more than the first buffer are added to its capacity. -/
theorem onBuffer_zeros {n : Nat} (hn : defaultRpcSz ≤ n) (hroom : rpcHeaderSz + n ≤ 2 ^ 30) :
    ∃ states r, Call.onBuffer (.new noJunk) (zeros n, noJunk) = some (states, r) ∧
      r.capa = Int32.ofNat (defaultRpcSz + n) ∧ r.ind = Int32.ofNat (rpcHeaderSz + n) := by
  have hroom' : (Marshall.new noJunk).ind + (zeros n).bytes.length ≤ 2 ^ 30 := by
    rw [length_zeros]
    exact hroom
  obtain ⟨states, r, hrun, _, hmirrors⟩ :=
    (zeros n).leads_actions noJunk (mirrors_new noJunk) (Nat.le_refl _) hroom'
  refine ⟨states, r, hrun, ?_, ?_⟩
  · have hheader : 0 < rpcHeaderSz := by decide
    have hfull : rpcHeaderSz + n > defaultRpcSz := by omega
    rw [hmirrors.capa_eq, zeros]
    simp only [Call.onMarshall, Marshall.rawbytes, Marshall.new, List.length_replicate]
    rw [if_pos hfull, if_neg (Nat.not_lt.mpr hn)]
  · rw [hmirrors.ind_eq, (zeros n).ind_onMarshall, length_zeros]
    rfl

/-- A gigabyte cannot be doubled. -/
theorem onBuffer_zeros_eq_none {r : RawMarshall} (hcapa : r.capa = Int32.ofNat (2 ^ 30))
    (hind : r.ind = Int32.ofNat (2 ^ 30 - 1000)) :
    Call.onBuffer r (zeros 1001, noJunk) = none := by
  have hfull : Int32.ofNat (2 ^ 30 - 1000) + Int32.ofNat 1001 > Int32.ofNat (2 ^ 30) := by decide
  have hdouble : Int32.ofNat (2 ^ 30) > Int32.ofNat 1001 := by decide
  have hnegative : ¬ (0 : Int32) ≤ 2 * Int32.ofNat (2 ^ 30) := by decide
  have hnone : r.rawbytes noJunk (List.replicate 1001 0) = none := by
    simp only [RawMarshall.rawbytes, hcapa, hind, List.length_replicate, if_pos hfull,
      if_pos hdouble, RawMarshall.grow, if_neg hnegative, Option.bind_none]
  simp only [Call.onBuffer, zeros, Call.actions, results, passes, Action.perform, hnone,
    Option.map_none, Option.bind_none]

theorem capacity_overflows_below_gigabyte :
    (written overflowing).length < 2 ^ 30 ∧
    results Call.onBuffer (RawMarshall.new noJunk) overflowing = none := by
  constructor
  · have hnil : (written []).length = 0 := rfl
    simp only [overflowing, length_written_cons, length_zeros]
    omega
  · have hind : rpcHeaderSz + (2 ^ 30 - 1024) = 2 ^ 30 - 1000 := by
      show 24 + (2 ^ 30 - 1024) = 2 ^ 30 - 1000
      omega
    have hle : defaultRpcSz ≤ 2 ^ 30 := by decide
    have hcapa : defaultRpcSz + (2 ^ 30 - 1024) = 2 ^ 30 := Nat.add_sub_cancel' hle
    have hroom : rpcHeaderSz + (2 ^ 30 - 1024) ≤ 2 ^ 30 := by
      rw [hind]
      exact Nat.sub_le _ _
    obtain ⟨states, r, hrun, hr⟩ := onBuffer_zeros (by decide) hroom
    rw [hcapa, hind] at hr
    simp only [overflowing, results, hrun, onBuffer_zeros_eq_none hr.1 hr.2, Option.bind_some,
      Option.bind_none, Option.map_none]

end DistributedLab.Wire
