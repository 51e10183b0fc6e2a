import Mathlib.Algebra.Group.Int.Defs
import Mathlib.Algebra.Group.Nat.Defs
import Mathlib.Tactic.SplitIfs

/-!
# Deadlines

`rpcc::call1` waits for a reply until a deadline, which `add_timespec` computes from the clock and
a number of milliseconds.  `pthread_cond_timedwait` takes nanoseconds from 0 up to, and without, a
whole second.  The loop of `add_timespec` carries a second over only while there is more than one,
so what it leaves lies between 1 and a whole second.

A wait for a deadline that is not valid returns at once, and not because of the time.  The loop
around it then goes on until the reply is there.
-/

namespace DistributedLab.Rpc

/-! ### The arithmetic -/

/-- `struct timespec`, with fields of type `time_t` and `long`. -/
structure Timespec where
  tvSec : Int64
  tvNsec : Int64
deriving DecidableEq, Repr

/-- `while (result->tv_nsec > 1000000000)`. -/
def carryLoop : Nat → Timespec → Timespec
  | 0, t => t
  | fuel + 1, t =>
      if t.tvNsec > 1000000000 then
        carryLoop fuel { tvSec := t.tvSec + 1, tvNsec := t.tvNsec - 1000000000 }
      else t

/-- The process ends if `VERIFY` fails. -/
def addTimespec (a : Timespec) (b : Int32) : Option Timespec :=
  let sec := a.tvSec + (b / 1000).toInt64
  let nsec := a.tvNsec + (b % 1000 * 1000000).toInt64
  if nsec ≥ 0 then some (carryLoop (nsec.toInt / 1000000000).toNat ⟨sec, nsec⟩) else none

/-- What `pthread_cond_timedwait` requires. -/
def Timespec.Normalised (t : Timespec) : Prop := 0 ≤ t.tvNsec.toInt ∧ t.tvNsec.toInt < 1000000000

/-- The time in nanoseconds. -/
def Timespec.total (t : Timespec) : Int := t.tvSec.toInt * 1000000000 + t.tvNsec.toInt

instance (t : Timespec) : Decidable t.Normalised := inferInstanceAs (Decidable (_ ∧ _))

/-- The loop leaves a remainder from 1 to a whole second. -/
theorem carryLoop_eq (fuel n : Nat) (sec : Int64) (hn : n < 2 ^ 63)
    (hfuel : n / 1000000000 ≤ fuel) :
    carryLoop fuel ⟨sec, Int64.ofNat n⟩ =
      ⟨sec + Int64.ofNat ((n - 1) / 1000000000),
        Int64.ofNat (n - (n - 1) / 1000000000 * 1000000000)⟩ := by
  induction fuel generalizing n sec with
  | zero =>
      have hzero : (n - 1) / 1000000000 = 0 := by omega
      rw [carryLoop, hzero]
      simp
  | succ fuel ih =>
      have hgt : Int64.ofNat n > 1000000000 ↔ n > 1000000000 := by
        rw [gt_iff_lt, Int64.lt_iff_toInt_lt, Int64.toInt_ofNat_of_lt hn]
        exact Int.ofNat_lt
      by_cases hmore : n > 1000000000
      · have hless : Int64.ofNat n - 1000000000 = Int64.ofNat (n - 1000000000) :=
          (Int64.ofNat_sub _ _ (Nat.le_of_lt hmore)).symm
        have hcount : (n - 1) / 1000000000 = (n - 1000000000 - 1) / 1000000000 + 1 := by omega
        have hrest : n - 1000000000 - (n - 1000000000 - 1) / 1000000000 * 1000000000 =
            n - ((n - 1000000000 - 1) / 1000000000 + 1) * 1000000000 := by omega
        rw [carryLoop, if_pos (hgt.mpr hmore), hless, ih _ _ (by omega) (by omega), hcount, hrest,
          Nat.add_comm _ 1, Int64.ofNat_add, ← Int64.add_assoc]
        rfl
      · have hzero : (n - 1) / 1000000000 = 0 := by omega
        rw [carryLoop, if_neg (mt hgt.mp hmore), hzero]
        simp

/-- Milliseconds in seconds and nanoseconds, which stay within an `int`. -/
theorem toInt64_millis {k : Nat} (hk : k < 2 ^ 31) :
    (Int32.ofNat k / 1000).toInt64 = Int64.ofNat (k / 1000) ∧
      (Int32.ofNat k % 1000 * 1000000).toInt64 = Int64.ofNat (k % 1000 * 1000000) := by
  have hcount : (Int32.ofNat k).toInt = k := Int32.toInt_ofNat_of_lt hk
  constructor
  · apply Int64.toInt_inj.mp
    rw [Int32.toInt_toInt64, Int32.toInt_div_of_ne_right _ _ (by decide), hcount,
      Int64.toInt_ofNat_of_lt (by omega)]
    rfl
  · have hrest : (Int32.ofNat k % 1000).toInt = (k % 1000 : Nat) := by
      rw [Int32.toInt_mod, hcount]
      rfl
    apply Int64.toInt_inj.mp
    rw [Int32.toInt_toInt64, Int32.toInt_mul, hrest, Int64.toInt_ofNat_of_lt (by omega),
      Int.bmod_eq_of_le (by simp; omega) (by simp; omega)]
    rfl

theorem addTimespec_eq {nsec k : Nat} (sec : Int64) (hnsec : nsec < 1000000000) (hk : k < 2 ^ 31) :
    addTimespec ⟨sec, Int64.ofNat nsec⟩ (Int32.ofNat k) =
      let n := nsec + k % 1000 * 1000000
      some ⟨sec + Int64.ofNat (k / 1000) + Int64.ofNat ((n - 1) / 1000000000),
        Int64.ofNat (n - (n - 1) / 1000000000 * 1000000000)⟩ := by
  have hn : nsec + k % 1000 * 1000000 < 2 ^ 63 := by omega
  have hvalue := Int64.toInt_ofNat_of_lt hn
  have hverify : Int64.ofNat (nsec + k % 1000 * 1000000) ≥ 0 := by
    rw [ge_iff_le, Int64.le_iff_toInt_le, hvalue]
    exact Int.natCast_nonneg _
  have hfuel : (nsec + k % 1000 * 1000000) / 1000000000 ≤
      ((Int64.ofNat (nsec + k % 1000 * 1000000)).toInt / 1000000000).toNat := by
    rw [hvalue]
    omega
  simp only [addTimespec, (toInt64_millis hk).1, (toInt64_millis hk).2, ← Int64.ofNat_add]
  rw [if_pos hverify, carryLoop_eq _ _ _ hn hfuel]

theorem toInt_add_ofNat_eq_iff {x : Int64} {n : Nat} (hn : n < 2 ^ 63) :
    (x + Int64.ofNat n).toInt = x.toInt + n ↔ x.toInt + n < 2 ^ 63 := by
  constructor
  · intro heq
    rw [← heq]
    exact Int64.toInt_lt _
  · intro hlt
    have hlow := x.le_toInt
    rw [Int64.toInt_add, Int64.toInt_ofNat_of_lt hn]
    exact Int.bmod_eq_of_le (by simp; omega) (by simp; omega)

theorem exists_nsec {t : Timespec} (h : t.Normalised) :
    ∃ nsec : Nat, nsec < 1000000000 ∧ t = ⟨t.tvSec, Int64.ofNat nsec⟩ := by
  obtain ⟨hlow, hhigh⟩ := h
  refine ⟨t.tvNsec.toInt.toNat, by omega, ?_⟩
  have hnsec : t.tvNsec = Int64.ofNat t.tvNsec.toInt.toNat := by
    apply Int64.toInt_inj.mp
    rw [Int64.toInt_ofNat_of_lt (by omega)]
    omega
  rw [← hnsec]

theorem exists_millis {b : Int32} (h : 0 ≤ b) : ∃ k : Nat, k < 2 ^ 31 ∧ b = Int32.ofNat k := by
  have hlow : 0 ≤ b.toInt := Int32.le_iff_toInt_le.mp h
  have hhigh := b.toInt_lt
  refine ⟨b.toInt.toNat, by omega, ?_⟩
  apply Int32.toInt_inj.mp
  rw [Int32.toInt_ofNat_of_lt (by omega)]
  omega

/-- The nanoseconds of `a`, and those of `b` milliseconds that are not whole seconds. -/
def nsecSum (a : Timespec) (b : Int32) : Int := a.tvNsec.toInt + b.toInt % 1000 * 1000000

theorem addTimespec_spec {a : Timespec} {b : Int32} (ha : a.Normalised) (hb : 0 ≤ b) :
    ∃ r, addTimespec a b = some r ∧ (r.Normalised ↔ nsecSum a b ≠ 1000000000) ∧
      (nsecSum a b ≠ 1000000000 → (r.total = a.total + b.toInt * 1000000 ↔
        a.total + b.toInt * 1000000 < 2 ^ 63 * 1000000000)) := by
  obtain ⟨nsec, hnsec, heq⟩ := exists_nsec ha
  obtain ⟨k, hk, rfl⟩ := exists_millis hb
  rw [heq]
  refine ⟨_, addTimespec_eq a.tvSec hnsec hk, ?_⟩
  have hmillis : (Int32.ofNat k).toInt = k := Int32.toInt_ofNat_of_lt hk
  have hstart : (Int64.ofNat nsec).toInt = nsec := Int64.toInt_ofNat_of_lt (by omega)
  obtain ⟨n, hn⟩ : ∃ n, nsec + k % 1000 * 1000000 = n := ⟨_, rfl⟩
  obtain ⟨carried, hcarried⟩ : ∃ carried, (n - 1) / 1000000000 = carried := ⟨_, rfl⟩
  have hrest : (Int64.ofNat (n - carried * 1000000000)).toInt =
      (n - carried * 1000000000 : Nat) := Int64.toInt_ofNat_of_lt (by omega)
  have hseconds := toInt_add_ofNat_eq_iff (x := a.tvSec) (n := k / 1000 + carried) (by omega)
  rw [Int64.ofNat_add, ← Int64.add_assoc] at hseconds
  simp only [nsecSum, Timespec.Normalised, Timespec.total, hmillis, hstart, hn, hcarried, hrest]
  generalize (a.tvSec + Int64.ofNat (k / 1000) + Int64.ofNat carried).toInt = sec at hseconds ⊢
  have hparts : (k : Int) * 1000000 =
      (k / 1000 : Nat) * 1000000000 + (k % 1000 : Nat) * 1000000 := by omega
  -- at most one second is carried, and none if there is exactly one
  by_cases hle : n ≤ 1000000000
  · obtain rfl : carried = 0 := by omega
    exact ⟨by omega, fun hne => by omega⟩
  · obtain rfl : carried = 1 := by omega
    exact ⟨by omega, fun hne => by omega⟩

/-- **The deadline is exact if the nanoseconds do not add up to a whole second**, and only then.
    Where they do, the second is not carried over.  The sum has to be a time that there is: its
    seconds fit in a `time_t`. -/
theorem addTimespec_exact_iff {a : Timespec} {b : Int32} (ha : a.Normalised) (hb : 0 ≤ b) :
    ∃ r, addTimespec a b = some r ∧
      ((r.Normalised ∧ r.total = a.total + b.toInt * 1000000) ↔
        a.tvNsec.toInt + b.toInt % 1000 * 1000000 ≠ 1000000000 ∧
          a.total + b.toInt * 1000000 < 2 ^ 63 * 1000000000) := by
  obtain ⟨r, hadd, hnormalised, htotal⟩ := addTimespec_spec ha hb
  refine ⟨r, hadd, ?_, ?_⟩
  · rintro ⟨hr, hexact⟩
    have hsum := hnormalised.mp hr
    exact ⟨hsum, (htotal hsum).mp hexact⟩
  · rintro ⟨hsum, hfits⟩
    exact ⟨hnormalised.mpr hsum, (htotal hsum).mpr hfits⟩

theorem addTimespec_exact_iff_carried :
    ∃ r, addTimespec ⟨1700000000, 999000000⟩ 2500 = some r ∧ r.Normalised ∧
      r.total = 1700000003499000000 := by
  obtain ⟨r, hadd, hexact⟩ := addTimespec_exact_iff
    (a := ⟨1700000000, 999000000⟩) (b := 2500) (by decide) (by decide)
  obtain ⟨hnormalised, htotal⟩ := hexact.mpr (by decide)
  exact ⟨r, hadd, hnormalised, htotal⟩

/-- One millisecond before the next second. -/
theorem whole_second_is_not_carried :
    Timespec.Normalised ⟨1700000000, 999000000⟩ ∧
      addTimespec ⟨1700000000, 999000000⟩ 1 = some ⟨1700000000, 1000000000⟩ ∧
      ¬ Timespec.Normalised ⟨1700000000, 1000000000⟩ := by
  decide

/-! ### The wait of `call1` -/

def cmpTimespec (a b : Timespec) : Int32 :=
  if a.tvSec > b.tvSec then 1
  else if a.tvSec < b.tvSec then -1
  else if a.tvNsec > b.tvNsec then 1
  else if a.tvNsec < b.tvNsec then -1
  else 0

/-- The deadline of the next wait, and what becomes of the final one. -/
def nextDeadline (now finaldeadline : Timespec) (currTo : Int32) : Option (Timespec × Timespec) :=
  (addTimespec now currTo).map fun nextdeadline =>
    if cmpTimespec nextdeadline finaldeadline > 0 then
      (finaldeadline, { finaldeadline with tvSec := 0 })
    else (nextdeadline, finaldeadline)

inductive WaitResult where
  | woken
  | etimedout
  | einval
deriving DecidableEq, Repr

/-- What happens to meet the loop of `call1`: whether the reply is there when it tests `done`, and
    whether the deadline has passed when the wait returns. -/
structure Round where
  done : Bool
  passed : Bool

def condTimedwait (deadline : Timespec) (round : Round) : WaitResult :=
  if deadline.Normalised then if round.passed then .etimedout else .woken else .einval

/-- `while (!ca.done)`, and `ca.done` when it ends.  It is still running if the rounds run out. -/
def waitLoop (deadline : Timespec) : List Round → Option Bool
  | [] => none
  | round :: rounds =>
      if round.done then some true
      else if condTimedwait deadline round = .etimedout then some false
      else waitLoop deadline rounds

theorem cmpTimespec_pos_iff {a b : Timespec} (ha : a.Normalised) (hb : b.Normalised) :
    cmpTimespec a b > 0 ↔ a.total > b.total := by
  obtain ⟨halow, hahigh⟩ := ha
  obtain ⟨hblow, hbhigh⟩ := hb
  unfold cmpTimespec Timespec.total
  simp only [gt_iff_lt, Int64.lt_iff_toInt_lt]
  split_ifs
  · exact ⟨fun _ => by omega, fun _ => by decide⟩
  · exact ⟨fun h => absurd h (by decide), fun _ => by omega⟩
  · exact ⟨fun _ => by omega, fun _ => by decide⟩
  · exact ⟨fun h => absurd h (by decide), fun _ => by omega⟩
  · exact ⟨fun h => absurd h (by decide), fun _ => by omega⟩

/-- The call waits for the earlier of the two deadlines. -/
theorem nextDeadline_earlier {now final : Timespec} {currTo : Int32} (hnow : now.Normalised)
    (hfinal : final.Normalised) (hto : 0 ≤ currTo) (hsum : nsecSum now currTo ≠ 1000000000)
    (hfits : now.total + currTo.toInt * 1000000 < 2 ^ 63 * 1000000000) :
    ∃ deadline rest, nextDeadline now final currTo = some (deadline, rest) ∧
      deadline.Normalised ∧
      deadline.total = min (now.total + currTo.toInt * 1000000) final.total := by
  obtain ⟨next, hadd, hnormalised, htotal⟩ := addTimespec_spec hnow hto
  have hnext := hnormalised.mpr hsum
  have hexact := (htotal hsum).mpr hfits
  have hcmp := cmpTimespec_pos_iff hnext hfinal
  rw [← hexact]
  by_cases hlater : cmpTimespec next final > 0
  · refine ⟨final, _, by rw [nextDeadline, hadd, Option.map_some, if_pos hlater], hfinal, ?_⟩
    exact (Int.min_eq_right (Int.le_of_lt (hcmp.mp hlater))).symm
  · refine ⟨next, _, by rw [nextDeadline, hadd, Option.map_some, if_neg hlater], hnext, ?_⟩
    exact (Int.min_eq_left (Int.not_lt.mp (mt hcmp.mpr hlater))).symm

section Wait

variable {deadline : Timespec} {rounds : List Round}

theorem waitLoop_valid (hvalid : deadline.Normalised)
    (hsilent : ∀ round ∈ rounds, round.done = false)
    (hpassed : ∃ round ∈ rounds, round.passed = true) : waitLoop deadline rounds = some false := by
  induction rounds with
  | nil => exact absurd hpassed (by simp)
  | cons round rounds ih =>
      obtain ⟨hfirst, hlater⟩ := List.forall_mem_cons.mp hsilent
      rw [waitLoop, hfirst]
      by_cases hnow : round.passed = true
      · simp [condTimedwait, hvalid, hnow]
      · have hrest : ∃ round ∈ rounds, round.passed = true := by
          obtain ⟨other, hmem, hother⟩ := hpassed
          rcases List.mem_cons.mp hmem with rfl | hmem
          · exact absurd hother hnow
          · exact ⟨other, hmem, hother⟩
        simpa [condTimedwait, hvalid, hnow] using ih hlater hrest

theorem waitLoop_invalid (hinvalid : ¬ deadline.Normalised)
    (hsilent : ∀ round ∈ rounds, round.done = false) : waitLoop deadline rounds = none := by
  induction rounds with
  | nil => rfl
  | cons round rounds ih =>
      obtain ⟨hfirst, hlater⟩ := List.forall_mem_cons.mp hsilent
      rw [waitLoop, hfirst]
      simpa [condTimedwait, hinvalid] using ih hlater

end Wait

/-- Without a reply the wait ends when the deadline passes, unless the nanoseconds add up to a
    whole second.  Then the loop runs on for any number of rounds. -/
theorem waitLoop_next {now next : Timespec} {currTo : Int32} {rounds : List Round}
    (hnow : now.Normalised) (hto : 0 ≤ currTo) (hnext : addTimespec now currTo = some next)
    (hsilent : ∀ round ∈ rounds, round.done = false)
    (hpassed : ∃ round ∈ rounds, round.passed = true) :
    waitLoop next rounds = (if nsecSum now currTo = 1000000000 then none else some false) := by
  obtain ⟨r, hadd, hnormalised, -⟩ := addTimespec_spec hnow hto
  cases hadd.symm.trans hnext
  by_cases hsum : nsecSum now currTo = 1000000000
  · rw [if_pos hsum]
    exact waitLoop_invalid (fun hvalid => hnormalised.mp hvalid hsum) hsilent
  · rw [if_neg hsum]
    exact waitLoop_valid (hnormalised.mpr hsum) hsilent hpassed

end DistributedLab.Rpc
