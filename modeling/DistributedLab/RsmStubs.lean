import DistributedLab.WireFormat

/-!
# The stubs of a replicated procedure

`rsm_client::call` marshalls the arguments of a call into a string, which travels as one
argument of other RPCs.  At a replica `rsm::execute` hands the string to the stub that
`rsm::reg` has made for the procedure: the stub reads the arguments, calls the method and
marshalls its result.  The reply is again a string inside a string, the status followed by
the result, and `call_m` takes both apart.

There is one `call` and one `reg` for each number of arguments from 1 to 5, written out by
hand.  Both sides have to name the arguments in the same order, and a stub insists on having
read all of the request.  A `VERIFY` that fails is `none`.
-/

namespace DistributedLab.Rsm

open Wire

/-! ### The client -/

/-- `marshall m; m << a1; …` and `m.str()`. -/
def request {α : Type} (c : Codec α) (memory : Nat → UInt8) (args : α) : List UInt8 :=
  (c.put args (.new memory)).getContent

section Call

variable {α₁ α₂ α₃ α₄ α₅ : Type} (c₁ : Codec α₁) (c₂ : Codec α₂) (c₃ : Codec α₃) (c₄ : Codec α₄)
  (c₅ : Codec α₅) (memory : Nat → UInt8)

def callOne (a₁ : α₁) : List UInt8 := request (c₁.andThen .nothing) memory (a₁, ())

def callTwo (a₁ : α₁) (a₂ : α₂) : List UInt8 :=
  request (c₁.andThen (c₂.andThen .nothing)) memory (a₁, a₂, ())

def callThree (a₁ : α₁) (a₂ : α₂) (a₃ : α₃) : List UInt8 :=
  request (c₁.andThen (c₂.andThen (c₃.andThen .nothing))) memory (a₁, a₂, a₃, ())

def callFour (a₁ : α₁) (a₂ : α₂) (a₃ : α₃) (a₄ : α₄) : List UInt8 :=
  request (c₁.andThen (c₂.andThen (c₃.andThen (c₄.andThen .nothing)))) memory (a₁, a₂, a₃, a₄, ())

def callFive (a₁ : α₁) (a₂ : α₂) (a₃ : α₃) (a₄ : α₄) (a₅ : α₅) : List UInt8 :=
  request (c₁.andThen (c₂.andThen (c₃.andThen (c₄.andThen (c₅.andThen .nothing))))) memory
    (a₁, a₂, a₃, a₄, a₅, ())

end Call

/-- `call_m` after `invoke` has returned OK with the reply: the status, and what the variable for
    the result holds. -/
def callM {ρ : Type} (result : Codec ρ) (old : ρ) (memory memory₁ : Nat → UInt8)
    (rep : List UInt8) : Option (Int32 × ρ) :=
  let intret := Codec.int.get Codec.int.fresh (.takeContent memory rep)
  if intret.1 < 0 then some (intret.1, old)
  else
    let res := Codec.string.get Codec.string.fresh intret.2
    if res.2.okdone then
      let r := result.get old (.takeContent memory₁ res.1)
      if r.2.okdone then some (intret.1, r.1) else none
    else none

/-! ### The replica -/

/-- `handler::fn`, with the marshaller after the result has been put in. -/
def ProcHandler : Type := Unmarshall → Marshall → Option (Int32 × Marshall)

/-- `args >> a1; …; VERIFY(args.okdone())`. -/
def readArgs {α : Type} (c : Codec α) (args : Unmarshall) : Option α :=
  let out := c.get c.fresh args
  if out.2.okdone then some out.1 else none

/-- A stub: what it passes to the method, and what it does with the result. -/
def stub {α ρ : Type} (decode : Unmarshall → Option α) (result : Codec ρ)
    (meth : α → Int32 × ρ) : ProcHandler := fun args ret =>
  (decode args).map fun a => ((meth a).1, result.put (meth a).2 ret)

section Reg

variable {α₁ α₂ α₃ α₄ α₅ ρ : Type} (c₁ : Codec α₁) (c₂ : Codec α₂) (c₃ : Codec α₃) (c₄ : Codec α₄)
  (c₅ : Codec α₅) (result : Codec ρ)

def regOne (meth : α₁ → Int32 × ρ) : ProcHandler :=
  stub (readArgs (c₁.andThen .nothing)) result fun (a₁, _) => meth a₁

def regTwo (meth : α₁ → α₂ → Int32 × ρ) : ProcHandler :=
  stub (readArgs (c₁.andThen (c₂.andThen .nothing))) result fun (a₁, a₂, _) => meth a₁ a₂

def regThree (meth : α₁ → α₂ → α₃ → Int32 × ρ) : ProcHandler :=
  stub (readArgs (c₁.andThen (c₂.andThen (c₃.andThen .nothing)))) result
    fun (a₁, a₂, a₃, _) => meth a₁ a₂ a₃

def regFour (meth : α₁ → α₂ → α₃ → α₄ → Int32 × ρ) : ProcHandler :=
  stub (readArgs (c₁.andThen (c₂.andThen (c₃.andThen (c₄.andThen .nothing))))) result
    fun (a₁, a₂, a₃, a₄, _) => meth a₁ a₂ a₃ a₄

/-- This stub declares `a5` and passes it on, but reads only the first four arguments. -/
def regFive (meth : α₁ → α₂ → α₃ → α₄ → α₅ → Int32 × ρ) : ProcHandler :=
  stub (readArgs (c₁.andThen (c₂.andThen (c₃.andThen (c₄.andThen .nothing))))) result
    fun (a₁, a₂, a₃, a₄, _) => meth a₁ a₂ a₃ a₄ c₅.fresh

end Reg

/-- `execute`, with the contents of the memory that its three buffers are allocated in. -/
def execute (procs : Int32 → Option ProcHandler) (procno : Int32)
    (memory memory₁ memory₂ : Nat → UInt8) (req : List UInt8) : Option (List UInt8) :=
  (procs procno).bind fun h =>
    (h (.takeContent memory req) (.new memory₁)).map fun (ret, rep) =>
      (Codec.string.put rep.getContent (Codec.int.put ret (.new memory₂))).getContent

/-! ### Strings inside strings -/

section Strings

variable {α : Type} {c : Codec α} {bytes : List UInt8} {v : α}

theorem request_eq (h : Writes (c.put v) bytes) (memory : Nat → UInt8) :
    request c memory v = bytes :=
  h.getContent memory

/-- A reader that finds its bytes and nothing else is done. -/
theorem read_to_end {p : StateM Unmarshall α} (h : Reads p bytes v) {u : Unmarshall}
    (hu : u.Holds bytes) :
    p u = (v, u.skip bytes.length) ∧ (u.skip bytes.length).okdone = true := by
  have hlength := congrArg List.length hu.rest
  rw [List.length_drop] at hlength
  have hend : u.ind + bytes.length = u.buf.length := by
    have := hu.ind_le
    omega
  refine ⟨h u [] (by rwa [List.append_nil]), ?_⟩
  simp [Unmarshall.okdone, Unmarshall.skip, hu.ok, hend]

/-- A reader that stops before the end is not done. -/
theorem not_done_before_end {p : StateM Unmarshall α} (h : Reads p bytes v)
    (memory : Nat → UInt8) {more : List UInt8}
    (hsize : rpcHeaderSz + (bytes ++ more).length < 2 ^ 31) (hmore : more ≠ []) :
    (p (.takeContent memory (bytes ++ more))).2.okdone = false := by
  have hread := h _ more (Unmarshall.holds_takeContent memory hsize)
  rw [hread]
  simp [Unmarshall.okdone, Unmarshall.skip, Unmarshall.takeContent, hmore]

theorem readArgs_eq_some (h : ∀ old, Reads (c.get old) bytes v) (memory : Nat → UInt8)
    (hsize : rpcHeaderSz + bytes.length < 2 ^ 31) :
    readArgs c (.takeContent memory bytes) = some v := by
  obtain ⟨hread, hdone⟩ := read_to_end (h c.fresh) (Unmarshall.holds_takeContent memory hsize)
  unfold readArgs
  dsimp only
  rw [hread, if_pos hdone]

theorem readArgs_eq_none (h : ∀ old, Reads (c.get old) bytes v) (memory : Nat → UInt8)
    {more : List UInt8} (hsize : rpcHeaderSz + (bytes ++ more).length < 2 ^ 31)
    (hmore : more ≠ []) : readArgs c (.takeContent memory (bytes ++ more)) = none := by
  unfold readArgs
  dsimp only
  rw [not_done_before_end (h c.fresh) memory hsize hmore]
  rfl

end Strings

/-! ### Replies -/

/-- The bytes of a reply: the status, and the marshalled result as a string. -/
theorem callM_of_reply {ρ : Type} {result : Codec ρ} (hresult : Marshallable result) (old : ρ)
    {status : Int32} (hstatus : 0 ≤ status) (r : ρ) (memory memory₁ memory₂ memory₃ : Nat → UInt8)
    (hsize : (Codec.string.put (result.put r (.new memory₂)).getContent
      (Codec.int.put status (.new memory₃))).ind < 2 ^ 30) :
    callM result old memory memory₁ (Codec.string.put (result.put r (.new memory₂)).getContent
      (Codec.int.put status (.new memory₃))).getContent = some (status, r) := by
  obtain ⟨bytes, hr⟩ := hresult.sound r
  have hint := Codec.carries_int status
  have hstring := Codec.carries_string bytes
  have hwrites := hint.writes.comp hstring.writes
  rw [hr.writes.getContent memory₂] at hsize ⊢
  rw [hwrites.getContent memory₃]
  have hlength : rpcHeaderSz + (bytes32 status.toUInt32 ++
      (bytes32 (UInt32.ofNat bytes.length) ++ bytes)).length < 2 ^ 30 := by
    rw [hwrites.ind (.new memory₃)] at hsize
    exact hsize
  -- the status, and then the string up to the end of the reply
  have hholds := Unmarshall.holds_takeContent memory (Nat.lt_trans hlength (by decide))
  have hstatusRead := hint.reads Codec.int.fresh _ _ hholds
  obtain ⟨hres, hresDone⟩ := read_to_end (hstring.reads Codec.string.fresh) hholds.skip
  have hsmall : rpcHeaderSz + bytes.length < 2 ^ 31 := by
    simp only [List.length_append] at hlength
    omega
  obtain ⟨hresult, hdone⟩ := read_to_end (hr.reads old)
    (Unmarshall.holds_takeContent memory₁ hsmall)
  unfold callM
  dsimp only
  rw [hstatusRead, if_neg (Int32.not_lt.mpr hstatus)]
  dsimp only
  rw [hres, if_pos hresDone]
  dsimp only
  rw [hresult, if_pos hdone]

/-! ### All arities -/

/-- The procedures that can be called and registered, by the number of their arguments: the
    request for a sequence of arguments, and the stub for a method. -/
inductive Registered {ρ : Type} (result : Codec ρ) :
    Nat → {α : Type} → ((Nat → UInt8) → α → List UInt8) → ((α → Int32 × ρ) → ProcHandler) → Prop
  | one {α₁ : Type} {c₁ : Codec α₁} (h₁ : Marshallable c₁) :
      Registered result 1 (fun memory (v : α₁ × Unit) => callOne c₁ memory v.1)
        fun meth => regOne c₁ result fun a₁ => meth (a₁, ())
  | two {α₁ α₂ : Type} {c₁ : Codec α₁} {c₂ : Codec α₂} (h₁ : Marshallable c₁)
      (h₂ : Marshallable c₂) :
      Registered result 2 (fun memory (v : α₁ × α₂ × Unit) => callTwo c₁ c₂ memory v.1 v.2.1)
        fun meth => regTwo c₁ c₂ result fun a₁ a₂ => meth (a₁, a₂, ())
  | three {α₁ α₂ α₃ : Type} {c₁ : Codec α₁} {c₂ : Codec α₂} {c₃ : Codec α₃}
      (h₁ : Marshallable c₁) (h₂ : Marshallable c₂) (h₃ : Marshallable c₃) :
      Registered result 3
        (fun memory (v : α₁ × α₂ × α₃ × Unit) => callThree c₁ c₂ c₃ memory v.1 v.2.1 v.2.2.1)
        fun meth => regThree c₁ c₂ c₃ result fun a₁ a₂ a₃ => meth (a₁, a₂, a₃, ())
  | four {α₁ α₂ α₃ α₄ : Type} {c₁ : Codec α₁} {c₂ : Codec α₂} {c₃ : Codec α₃} {c₄ : Codec α₄}
      (h₁ : Marshallable c₁) (h₂ : Marshallable c₂) (h₃ : Marshallable c₃)
      (h₄ : Marshallable c₄) :
      Registered result 4
        (fun memory (v : α₁ × α₂ × α₃ × α₄ × Unit) =>
          callFour c₁ c₂ c₃ c₄ memory v.1 v.2.1 v.2.2.1 v.2.2.2.1)
        fun meth => regFour c₁ c₂ c₃ c₄ result fun a₁ a₂ a₃ a₄ => meth (a₁, a₂, a₃, a₄, ())
  | five {α₁ α₂ α₃ α₄ α₅ : Type} {c₁ : Codec α₁} {c₂ : Codec α₂} {c₃ : Codec α₃} {c₄ : Codec α₄}
      {c₅ : Codec α₅} (h₁ : Marshallable c₁) (h₂ : Marshallable c₂) (h₃ : Marshallable c₃)
      (h₄ : Marshallable c₄) (h₅ : Marshallable c₅) :
      Registered result 5
        (fun memory (v : α₁ × α₂ × α₃ × α₄ × α₅ × Unit) =>
          callFive c₁ c₂ c₃ c₄ c₅ memory v.1 v.2.1 v.2.2.1 v.2.2.2.1 v.2.2.2.2.1)
        fun meth => regFive c₁ c₂ c₃ c₄ c₅ result fun a₁ a₂ a₃ a₄ a₅ => meth (a₁, a₂, a₃, a₄, a₅, ())

section Arities

variable {α ρ : Type} {result : Codec ρ} {n : Nat} {call : (Nat → UInt8) → α → List UInt8}
  {reg : (α → Int32 × ρ) → ProcHandler}

/-- Up to four arguments the stub reads what the client has written. -/
theorem Registered.reads_all (h : Registered result n call reg) (hn : n ≤ 4) :
    ∃ c : Codec α, Sequence c ∧ call = request c ∧ reg = stub (readArgs c) result := by
  cases h with
  | one h₁ => exact ⟨_, .cons h₁ .nil, rfl, rfl⟩
  | two h₁ h₂ => exact ⟨_, .cons h₁ (.cons h₂ .nil), rfl, rfl⟩
  | three h₁ h₂ h₃ => exact ⟨_, .cons h₁ (.cons h₂ (.cons h₃ .nil)), rfl, rfl⟩
  | four h₁ h₂ h₃ h₄ => exact ⟨_, .cons h₁ (.cons h₂ (.cons h₃ (.cons h₄ .nil))), rfl, rfl⟩
  | five => exact absurd hn (by decide)

/-- With five arguments the bytes of the last one are left, and the stub stops the replica. -/
theorem Registered.stops (h : Registered result n call reg) (hn : ¬ n ≤ 4) (meth : α → Int32 × ρ)
    (v : α) (memory memory₁ : Nat → UInt8)
    (hsize : rpcHeaderSz + (call memory v).length < 2 ^ 31) (ret : Marshall) :
    reg meth (.takeContent memory₁ (call memory v)) ret = none := by
  cases h with
  | one => exact absurd (by decide) hn
  | two => exact absurd (by decide) hn
  | three => exact absurd (by decide) hn
  | four => exact absurd (by decide) hn
  | @five α₁ α₂ α₃ α₄ α₅ c₁ c₂ c₃ c₄ c₅ h₁ h₂ h₃ h₄ h₅ =>
      obtain ⟨a₁, a₂, a₃, a₄, a₅, rest⟩ := v
      have hfour : Sequence (c₁.andThen (c₂.andThen (c₃.andThen (c₄.andThen .nothing)))) :=
        .cons h₁ (.cons h₂ (.cons h₃ (.cons h₄ .nil)))
      obtain ⟨bytes, hwrites, hreads⟩ := hfour.agrees (a₁, a₂, a₃, a₄, ())
      obtain ⟨more, hfifth⟩ := h₅.sound a₅
      have hrequest : callFive c₁ c₂ c₃ c₄ c₅ memory a₁ a₂ a₃ a₄ a₅ = bytes ++ more :=
        (hwrites.comp hfifth.writes).getContent memory
      dsimp only at hsize ⊢
      rw [hrequest] at hsize ⊢
      unfold regFive stub
      dsimp only
      rw [readArgs_eq_none hreads memory₁ hsize hfifth.ne_nil]
      rfl

/-- A call is transparent: the stub calls the method with the arguments of the client, and the
    client gets its status and result.  `memory k` is what the memory of the buffer that is
    allocated as number `k` holds. -/
def Transparent (result : Codec ρ) (call : (Nat → UInt8) → α → List UInt8)
    (procs : Int32 → Option ProcHandler) (procno : Int32) (h : ProcHandler)
    (meth : α → Int32 × ρ) (v : α)
    (old : ρ) (memory : Nat → Nat → UInt8) : Prop :=
  h (.takeContent (memory 1) (call (memory 0) v)) (.new (memory 2)) =
      some ((meth v).1, result.put (meth v).2 (.new (memory 2))) ∧
    ∃ rep, execute procs procno (memory 1) (memory 2) (memory 3) (call (memory 0) v) = some rep ∧
      callM result old (memory 4) (memory 5) rep = some (meth v)

/-- **Calls of replicated procedures are transparent** exactly if they have at most four
    arguments.  Request and reply are so short that the size of their buffers is an `int`. -/
theorem call_transparent_iff (hresult : Marshallable result) (h : Registered result n call reg)
    (meth : α → Int32 × ρ) (v : α) (hstatus : 0 ≤ (meth v).1) {procs : Int32 → Option ProcHandler}
    {procno : Int32} (hproc : procs procno = some (reg meth)) (old : ρ)
    (memory : Nat → Nat → UInt8) (hrequest : rpcHeaderSz + (call (memory 0) v).length < 2 ^ 30)
    (hreply : (Codec.string.put (result.put (meth v).2 (.new (memory 2))).getContent
      (Codec.int.put (meth v).1 (.new (memory 3)))).ind < 2 ^ 30) :
    Transparent result call procs procno (reg meth) meth v old memory ↔ n ≤ 4 := by
  constructor
  · rintro ⟨hdecoded, -⟩
    by_contra hn
    rw [h.stops hn meth v _ _ (Nat.lt_trans hrequest (by decide))] at hdecoded
    cases hdecoded
  · intro hn
    obtain ⟨c, hc, rfl, rfl⟩ := h.reads_all hn
    obtain ⟨bytes, hwrites, hreads⟩ := hc.agrees v
    have hdecoded : stub (readArgs c) result meth
        (.takeContent (memory 1) (request c (memory 0) v)) (.new (memory 2)) =
        some ((meth v).1, result.put (meth v).2 (.new (memory 2))) := by
      rw [request_eq hwrites] at hrequest ⊢
      unfold stub
      rw [readArgs_eq_some hreads _ (Nat.lt_trans hrequest (by decide))]
      rfl
    refine ⟨hdecoded, _, ?_, callM_of_reply hresult old hstatus (meth v).2 _ _ _ _ hreply⟩
    unfold execute
    rw [hproc, Option.bind_some, hdecoded]
    rfl

end Arities

/-! ### Two procedures -/

/-- The length of a string, and whether it is at least the given number. -/
def lengthAtLeast (v : UInt32 × List UInt8 × Unit) : Int32 × UInt32 :=
  (if v.1.toNat ≤ v.2.1.length then 1 else 0, UInt32.ofNat v.2.1.length)

theorem call_transparent_two_arguments :
    Transparent .unsignedInt (fun memory v => callTwo .unsignedInt .string memory v.1 v.2.1)
      (fun _ => some (regTwo .unsignedInt .string .unsignedInt fun a₁ a₂ =>
        lengthAtLeast (a₁, a₂, ()))) 0
      (regTwo .unsignedInt .string .unsignedInt fun a₁ a₂ => lengthAtLeast (a₁, a₂, ()))
      lengthAtLeast (2, [97, 98, 99], ()) 0 fun _ _ => 0 :=
  (call_transparent_iff .unsignedInt (.two .unsignedInt .string) lengthAtLeast
    (2, [97, 98, 99], ()) (by decide) rfl 0 (fun _ _ => 0) (by decide +kernel)
    (by decide +kernel)).mpr (by decide)

/-- The sum of five numbers. -/
def sumOfFive (v : UInt32 × UInt32 × UInt32 × UInt32 × UInt32 × Unit) : Int32 × UInt32 :=
  (0, v.1 + v.2.1 + v.2.2.1 + v.2.2.2.1 + v.2.2.2.2.1)

/-- A procedure with five arguments stops the replica at its first call. -/
theorem five_arguments_stop_the_replica :
    ¬ ∀ (n : Nat) (call : (Nat → UInt8) → UInt32 × UInt32 × UInt32 × UInt32 × UInt32 × Unit →
        List UInt8)
      (reg : (UInt32 × UInt32 × UInt32 × UInt32 × UInt32 × Unit → Int32 × UInt32) → ProcHandler),
      Registered .unsignedInt n call reg →
      Transparent .unsignedInt call (fun _ => some (reg sumOfFive)) 0 (reg sumOfFive) sumOfFive
        (1, 2, 3, 4, 5, ()) 0 fun _ _ => 0 := by
  intro hclaim
  have hfive : Registered .unsignedInt 5 _ _ :=
    .five .unsignedInt .unsignedInt .unsignedInt .unsignedInt .unsignedInt
  obtain ⟨hdecoded, -⟩ := hclaim _ _ _ hfive
  rw [hfive.stops (by decide) _ _ _ _ (by decide +kernel)] at hdecoded
  cases hdecoded

end DistributedLab.Rsm
