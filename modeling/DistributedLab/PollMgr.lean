import DistributedLab.Condition
import DistributedLab.Transition
import Mathlib.Data.Finset.Basic
import Mathlib.Data.Finset.Range
import Mathlib.Data.List.Perm.Subperm
import Mathlib.Tactic.Push

/-!
# The poll thread

One thread waits for all connections of the process.  `SelectAIO` has the sets of file descriptors
that it waits for, and a pipe: a byte in it makes `select` return, so that a thread that changes
the sets gets the poll thread to look at them again.  `PollMgr` has a callback for each
descriptor, which the poll thread calls when the descriptor is ready.

A connection is deleted after its descriptor has been removed, so `block_remove_fd` has to wait
until the poll thread can be neither in a callback of that descriptor nor on the way to one.  It
does so by waiting for the poll thread to come round: the condition is not tested again after the
wait, so the guarantee rests on there being no wakeups without a signal.
-/

namespace DistributedLab.Rpc

open Transition Monitor

/-- `poll_flag`. -/
inductive PollFlag where
  | none | rdonly | wronly | rdwr | mask
deriving DecidableEq, Repr

/-- What `wait_ready` copies: the two sets and the highest descriptor. -/
structure FdSets where
  rfds : Finset Nat
  wfds : Finset Nat
  highfds : Nat
deriving DecidableEq

/-- `class SelectAIO`.  `pipefd` is the end of the pipe that is read, `bytes` is what is in it. -/
structure SelectAio extends FdSets where
  pipefd : Nat
  bytes : Nat
deriving DecidableEq

/-- `SelectAIO::SelectAIO`. -/
def SelectAio.create (pipefd : Nat) : SelectAio := ⟨⟨{pipefd}, ∅, pipefd⟩, pipefd, 0⟩

def SelectAio.watchFd (s : SelectAio) (fd : Nat) (flag : PollFlag) : SelectAio :=
  { s with
    highfds := if s.highfds ≤ fd then fd else s.highfds
    rfds := if flag = .wronly then s.rfds else insert fd s.rfds
    wfds := if flag = .rdonly then s.wfds else insert fd s.wfds
    bytes := s.bytes + 1 }

/-- The loop of `unwatch_fd` that looks for the new highest descriptor. -/
def FdSets.findHigh (s : FdSets) (pipefd : Nat) : Nat :=
  (List.range (s.highfds + 1)).foldl
    (fun newh i => if i ∈ s.rfds then i else if i ∈ s.wfds then i else newh) pipefd

/-- The sets after `FD_CLR`; the other flags end the process. -/
def FdSets.clear (s : FdSets) (fd : Nat) : PollFlag → Option FdSets
  | .rdonly => some { s with rfds := s.rfds.erase fd }
  | .wronly => some { s with wfds := s.wfds.erase fd }
  | .rdwr => some { s with rfds := s.rfds.erase fd, wfds := s.wfds.erase fd }
  | _ => Option.none

def FdSets.idle (s : FdSets) (fd : Nat) : Bool :=
  !decide (fd ∈ s.rfds) && !decide (fd ∈ s.wfds)

/-- `SelectAIO::unwatch_fd`. -/
def SelectAio.unwatchFd (s : SelectAio) (fd : Nat) (flag : PollFlag) :
    Option (Bool × SelectAio) :=
  (s.clear fd flag).map fun sets =>
    (sets.idle fd,
      { s with
        rfds := sets.rfds
        wfds := sets.wfds
        highfds := if sets.idle fd ∧ fd = s.highfds then sets.findHigh s.pipefd else s.highfds
        bytes := if flag = .rdwr then s.bytes + 1 else s.bytes })

/-- The vectors that `wait_ready` fills, and the bytes left in the pipe. -/
structure Scan where
  bytes : Nat
  readable : List Nat
  writable : List Nat
deriving DecidableEq, Repr

/-- A round of the last loop of `wait_ready`.  The process ends if the byte is not there. -/
def Scan.visit (pipefd : Nat) (trfds twfds : Finset Nat) (acc : Scan) (fd : Nat) : Option Scan :=
  if fd = pipefd ∧ fd ∈ trfds then
    if acc.bytes = 0 then none else some { acc with bytes := acc.bytes - 1 }
  else
    some { acc with
      writable := if fd ∈ twfds then acc.writable ++ [fd] else acc.writable
      readable := if fd ∈ trfds then acc.readable ++ [fd] else acc.readable }

/-- What `select` leaves in a set: the descriptors below its first argument that are ready. -/
def FdSets.ready (s : FdSets) (watched ready : Finset Nat) : Finset Nat :=
  (watched ∩ ready).filter (· ≤ s.highfds)

/-- `wait_ready` after the sets were copied, with what is ready when `select` returns.  It does
    not return before something is. -/
def FdSets.waitReady (s : FdSets) (pipefd bytes : Nat) (readyR readyW : Finset Nat) :
    Option Scan :=
  if s.ready s.rfds readyR = ∅ ∧ s.ready s.wfds readyW = ∅ then none
  else (List.range (s.highfds + 1)).foldlM
    (Scan.visit pipefd (s.ready s.rfds readyR) (s.ready s.wfds readyW)) ⟨bytes, [], []⟩

/-! ### The highest descriptor -/

/-- `highfds_` is the greatest descriptor that is waited for, and the pipe is always read. -/
structure FdSets.Sound (s : FdSets) (pipefd : Nat) : Prop where
  watched : pipefd ∈ s.rfds
  unwritten : pipefd ∉ s.wfds
  high : s.highfds ∈ s.rfds ∪ s.wfds
  le : ∀ fd ∈ s.rfds ∪ s.wfds, fd ≤ s.highfds

theorem SelectAio.sound_create (pipefd : Nat) :
    (SelectAio.create pipefd).toFdSets.Sound pipefd where
  watched := Finset.mem_singleton_self pipefd
  unwritten := Finset.notMem_empty pipefd
  high := Finset.mem_union_left _ (Finset.mem_singleton_self pipefd)
  le := by simp [SelectAio.create]

/-- Where the loop stops: the last member of the range, if there is one. -/
theorem FdSets.foldl_high (s : FdSets) (pipefd n : Nat) :
    let newh := (List.range n).foldl
      (fun newh i => if i ∈ s.rfds then i else if i ∈ s.wfds then i else newh) pipefd
    (newh = pipefd ∨ newh ∈ s.rfds ∪ s.wfds) ∧
      ∀ fd ∈ s.rfds ∪ s.wfds, fd < n → fd ≤ newh := by
  induction n with
  | zero => exact ⟨.inl rfl, fun fd _ h => absurd h (Nat.not_lt_zero fd)⟩
  | succ n ih =>
      obtain ⟨hmem, hle⟩ := ih
      simp only [List.range_succ, List.foldl_append, List.foldl_cons, List.foldl_nil]
      by_cases hn : n ∈ s.rfds ∪ s.wfds
      · have hstep : ∀ h : Nat, (if n ∈ s.rfds then n else if n ∈ s.wfds then n else h) = n := by
          intro h
          rcases Finset.mem_union.mp hn with hr | hw
          · rw [if_pos hr]
          · rw [if_pos hw, ite_self]
        rw [hstep]
        exact ⟨.inr hn, fun fd _ hlt => Nat.lt_succ_iff.mp hlt⟩
      · obtain ⟨hr, hw⟩ := not_or.mp (fun h => hn (Finset.mem_union.mpr h))
        rw [if_neg hr, if_neg hw]
        refine ⟨hmem, ?_⟩
        intro fd hfd hlt
        have hne : fd ≠ n := fun heq => hn (heq ▸ hfd)
        exact hle fd hfd (by omega)

theorem FdSets.Sound.watchFd {s : SelectAio} (hs : s.toFdSets.Sound s.pipefd) {fd : Nat}
    (flag : PollFlag) (hfd : fd ≠ s.pipefd) :
    (s.watchFd fd flag).toFdSets.Sound s.pipefd := by
  have hmem : ∀ x, x ∈ (s.watchFd fd flag).rfds ∪ (s.watchFd fd flag).wfds ↔
      x = fd ∨ x ∈ s.rfds ∪ s.wfds := by
    intro x
    cases flag <;>
      simp only [SelectAio.watchFd, reduceCtorEq, if_true, if_false, Finset.mem_union,
        Finset.mem_insert] <;> tauto
  constructor
  · show s.pipefd ∈ (s.watchFd fd flag).rfds
    simp only [SelectAio.watchFd]
    split
    · exact hs.watched
    · exact Finset.mem_insert_of_mem hs.watched
  · show s.pipefd ∉ (s.watchFd fd flag).wfds
    simp only [SelectAio.watchFd]
    split
    · exact hs.unwritten
    · simpa [hfd.symm] using hs.unwritten
  · rw [hmem]
    simp only [SelectAio.watchFd]
    split
    · exact .inl rfl
    · exact .inr hs.high
  · intro x hx
    rw [hmem] at hx
    simp only [SelectAio.watchFd]
    rcases hx with rfl | hx
    · split <;> omega
    · have := hs.le x hx
      split <;> omega

theorem FdSets.clear_subset {s sets : FdSets} {fd : Nat} {flag : PollFlag}
    (h : s.clear fd flag = some sets) :
    sets.highfds = s.highfds ∧ sets.rfds ⊆ s.rfds ∧ sets.wfds ⊆ s.wfds ∧
      (∀ x, x ≠ fd → (x ∈ s.rfds → x ∈ sets.rfds) ∧ (x ∈ s.wfds → x ∈ sets.wfds)) := by
  cases flag with
  | none => cases h
  | mask => cases h
  | rdonly =>
      cases h
      exact ⟨rfl, Finset.erase_subset _ _, Finset.Subset.refl _,
        fun x hx => ⟨Finset.mem_erase_of_ne_of_mem hx, id⟩⟩
  | wronly =>
      cases h
      exact ⟨rfl, Finset.Subset.refl _, Finset.erase_subset _ _,
        fun x hx => ⟨id, Finset.mem_erase_of_ne_of_mem hx⟩⟩
  | rdwr =>
      cases h
      exact ⟨rfl, Finset.erase_subset _ _, Finset.erase_subset _ _,
        fun x hx => ⟨Finset.mem_erase_of_ne_of_mem hx, Finset.mem_erase_of_ne_of_mem hx⟩⟩

theorem FdSets.Sound.unwatchFd {s s' : SelectAio} {fd : Nat} {flag : PollFlag} {r : Bool}
    (hs : s.toFdSets.Sound s.pipefd) (hfd : fd ≠ s.pipefd)
    (h : s.unwatchFd fd flag = some (r, s')) : s'.toFdSets.Sound s.pipefd := by
  obtain ⟨sets, hclear, heq⟩ := Option.map_eq_some_iff.mp h
  cases heq
  obtain ⟨hhigh, hr, hw, hkeep⟩ := FdSets.clear_subset hclear
  have hpipe : s.pipefd ∈ sets.rfds := (hkeep s.pipefd hfd.symm).1 hs.watched
  have hsub : sets.rfds ∪ sets.wfds ⊆ s.rfds ∪ s.wfds := Finset.union_subset_union hr hw
  refine ⟨hpipe, fun hmem => hs.unwritten (hw hmem), ?_, ?_⟩
  · show (if sets.idle fd ∧ fd = s.highfds then sets.findHigh s.pipefd else s.highfds) ∈ _
    split
    · rcases (sets.foldl_high s.pipefd (sets.highfds + 1)).1 with hpipefd | hmem
      · show sets.findHigh s.pipefd ∈ _
        rw [FdSets.findHigh, hpipefd]
        exact Finset.mem_union_left _ hpipe
      · exact hmem
    · next hnot =>
        by_cases heq : fd = s.highfds
        · have hbusy : ¬ sets.idle fd = true := fun hidle => hnot ⟨hidle, heq⟩
          rw [← heq]
          simp only [FdSets.idle, Bool.and_eq_true, Bool.not_eq_true', decide_eq_false_iff_not,
            not_and_or, not_not] at hbusy
          exact Finset.mem_union.mpr hbusy
        · rcases Finset.mem_union.mp hs.high with hmem | hmem
          · exact Finset.mem_union_left _ ((hkeep _ (Ne.symm heq)).1 hmem)
          · exact Finset.mem_union_right _ ((hkeep _ (Ne.symm heq)).2 hmem)
  · intro x hx
    have hle := hs.le x (hsub hx)
    show x ≤ if sets.idle fd ∧ fd = s.highfds then sets.findHigh s.pipefd else s.highfds
    split
    · exact (sets.foldl_high s.pipefd (sets.highfds + 1)).2 x hx (by rw [hhigh]; omega)
    · exact hle

/-! ### What `wait_ready` reports -/

/-- The loop over the descriptors, as far as it has come. -/
theorem Scan.foldlM_visit {pipefd bytes : Nat} {trfds twfds : Finset Nat}
    (hbytes : pipefd ∈ trfds → 0 < bytes) (hunwritten : pipefd ∉ twfds) (n : Nat) :
    (List.range n).foldlM (Scan.visit pipefd trfds twfds) ⟨bytes, [], []⟩ =
      some ⟨if pipefd ∈ trfds ∧ pipefd < n then bytes - 1 else bytes,
        (List.range n).filter (fun fd => fd ∈ trfds ∧ fd ≠ pipefd),
        (List.range n).filter (fun fd => fd ∈ twfds)⟩ := by
  induction n with
  | zero => simp
  | succ n ih =>
      rw [List.range_succ, List.foldlM_append, ih]
      simp only [List.foldlM_cons, List.foldlM_nil, List.filter_append, Option.bind_eq_bind,
        Option.bind_some, Scan.visit]
      by_cases hn : n = pipefd
      · subst hn
        by_cases hmem : n ∈ trfds
        · have := hbytes hmem
          simp [hmem, hunwritten]
          omega
        · simp [hmem, hunwritten]
      · have hlt : pipefd < n + 1 ↔ pipefd < n := by omega
        by_cases hr : n ∈ trfds <;> by_cases hw : n ∈ twfds <;> simp [hn, hr, hw, hlt]

theorem FdSets.Sound.mem_ready {s : FdSets} {pipefd : Nat} (hs : s.Sound pipefd)
    {watched ready : Finset Nat} (hwatched : watched ⊆ s.rfds ∪ s.wfds) (fd : Nat) :
    fd ∈ s.ready watched ready ↔ fd ∈ watched ∧ fd ∈ ready := by
  simp only [FdSets.ready, Finset.mem_filter, Finset.mem_inter, and_iff_left_iff_imp]
  exact fun hfd => hs.le fd (hwatched hfd.1)

/-- `wait_ready` reports each descriptor that is waited for and ready, and no other; the pipe
    costs it a byte. -/
theorem FdSets.Sound.waitReady {s : FdSets} {pipefd bytes : Nat} (hs : s.Sound pipefd)
    {readyR readyW : Finset Nat} (hpipe : pipefd ∈ readyR ↔ 0 < bytes)
    (hready : (∃ fd ∈ s.rfds, fd ∈ readyR) ∨ ∃ fd ∈ s.wfds, fd ∈ readyW) :
    ∃ scan, s.waitReady pipefd bytes readyR readyW = some scan ∧
      (∀ fd, fd ∈ scan.readable ↔ fd ∈ s.rfds ∧ fd ∈ readyR ∧ fd ≠ pipefd) ∧
      (∀ fd, fd ∈ scan.writable ↔ fd ∈ s.wfds ∧ fd ∈ readyW) ∧
      scan.readable.Pairwise (· < ·) ∧ scan.writable.Pairwise (· < ·) ∧
      scan.bytes = bytes - 1 := by
  have hr : ∀ fd, fd ∈ s.ready s.rfds readyR ↔ fd ∈ s.rfds ∧ fd ∈ readyR :=
    hs.mem_ready Finset.subset_union_left
  have hw : ∀ fd, fd ∈ s.ready s.wfds readyW ↔ fd ∈ s.wfds ∧ fd ∈ readyW :=
    hs.mem_ready Finset.subset_union_right
  have hlt : ∀ fd ∈ s.rfds ∪ s.wfds, fd < s.highfds + 1 := fun fd hfd =>
    Nat.lt_succ_of_le (hs.le fd hfd)
  have hbytes : pipefd ∈ s.ready s.rfds readyR ↔ 0 < bytes := by
    rw [hr, and_iff_right hs.watched, hpipe]
  have hunwritten : pipefd ∉ s.ready s.wfds readyW := fun h => hs.unwritten ((hw _).mp h).1
  have hscan : s.waitReady pipefd bytes readyR readyW = some
      ⟨if pipefd ∈ s.ready s.rfds readyR ∧ pipefd < s.highfds + 1 then bytes - 1 else bytes,
      (List.range (s.highfds + 1)).filter (fun fd => fd ∈ s.ready s.rfds readyR ∧ fd ≠ pipefd),
      (List.range (s.highfds + 1)).filter (fun fd => fd ∈ s.ready s.wfds readyW)⟩ := by
    rw [FdSets.waitReady, if_neg, Scan.foldlM_visit hbytes.mp hunwritten]
    rintro ⟨hnone, hnone'⟩
    rcases hready with ⟨fd, hfd, hmem⟩ | ⟨fd, hfd, hmem⟩
    · exact Finset.notMem_empty fd (hnone ▸ (hr fd).mpr ⟨hfd, hmem⟩)
    · exact Finset.notMem_empty fd (hnone' ▸ (hw fd).mpr ⟨hfd, hmem⟩)
  refine ⟨_, hscan, ?_, ?_, List.pairwise_lt_range.filter _, List.pairwise_lt_range.filter _, ?_⟩
  · intro fd
    simp only [List.mem_filter, List.mem_range, hr, decide_eq_true_eq]
    constructor
    · rintro ⟨-, ⟨hfd, hmem⟩, hne⟩
      exact ⟨hfd, hmem, hne⟩
    · rintro ⟨hfd, hmem, hne⟩
      exact ⟨hlt fd (Finset.mem_union_left _ hfd), ⟨hfd, hmem⟩, hne⟩
  · intro fd
    simp only [List.mem_filter, List.mem_range, hw, decide_eq_true_eq]
    exact ⟨fun h => h.2, fun h => ⟨hlt fd (Finset.mem_union_right _ h.1), h⟩⟩
  · show (if pipefd ∈ s.ready s.rfds readyR ∧ pipefd < s.highfds + 1 then bytes - 1 else bytes) =
      bytes - 1
    split
    · rfl
    · next hnot =>
        have hpos : ¬ 0 < bytes := fun hpos =>
          hnot ⟨hbytes.mpr hpos, hlt _ (Finset.mem_union_left _ hs.watched)⟩
        omega

/-! ### Callbacks -/

def maxPollFds : Nat := 128

/-- Where the poll thread is in `wait_loop`.  The lists are what is left to call of `readable`
    and `writable`. -/
inductive PollStage where
  | top
  /-- About to copy the sets in `wait_ready`. -/
  | copying
  | selecting (sets : FdSets)
  | calling (readable writable : List Nat)
  /-- `callbacks_[fd]` was found to be set. -/
  | checked (write : Bool) (fd : Nat) (readable writable : List Nat)
  | inCallback (write : Bool) (cb fd : Nat) (readable writable : List Nat)
deriving DecidableEq

/-- `class PollMgr`.  Threads in the wait of `block_remove_fd` are there with their descriptor.
    `gone` is a history: the descriptors whose `block_remove_fd` has returned and that have not
    been added again. -/
structure PollMgr where
  aio : SelectAio
  callbacks : Nat → Option Nat
  pendingChange : Bool
  changedone : Cond (Nat × Nat)
  stage : PollStage
  gone : Finset Nat

def PollMgr.create (pipefd : Nat) : PollMgr :=
  ⟨.create pipefd, fun _ => none, false, Cond.empty, .top, ∅⟩

def PollMgr.addCallback (s : PollMgr) (fd : Nat) (flag : PollFlag) (ch : Nat) : Option PollMgr :=
  if fd < maxPollFds ∧ (s.callbacks fd = none ∨ s.callbacks fd = some ch) then
    some { s with
      aio := s.aio.watchFd fd flag
      callbacks := Function.update s.callbacks fd (some ch)
      gone := s.gone.erase fd }
  else none

def PollMgr.delCallback (s : PollMgr) (fd : Nat) (flag : PollFlag) : Option PollMgr :=
  (s.aio.unwatchFd fd flag).map fun r =>
    { s with
      aio := r.2
      callbacks := if r.1 then Function.update s.callbacks fd none else s.callbacks }

/-- `block_remove_fd` up to its wait. -/
def PollMgr.blockRemoveFd (s : PollMgr) (t fd : Nat) : Option PollMgr :=
  (s.aio.unwatchFd fd .rdwr).map fun r =>
    { s with aio := r.2, pendingChange := true, changedone := s.changedone.wait (t, fd) }

/-- `block_remove_fd` after its wait. -/
def PollMgr.removeReturns (s : PollMgr) (t fd : Nat) : Option PollMgr :=
  (s.changedone.resume (t, fd)).map fun c =>
    { s with
      changedone := c
      callbacks := Function.update s.callbacks fd none
      gone := insert fd s.gone }

/-- The first block of `wait_loop`. -/
def PollMgr.wakeRemovers (s : PollMgr) : PollMgr :=
  { s with
    pendingChange := false
    changedone := if s.pendingChange then s.changedone.broadcast else s.changedone
    stage := .copying }

/-- The loops over `readable` and `writable` at their heads: the test of `callbacks_[fd]`. -/
def PollMgr.check (s : PollMgr) : List Nat → List Nat → PollStage
  | fd :: readable, writable =>
      if s.callbacks fd = none then .calling readable writable
      else .checked false fd readable writable
  | [], fd :: writable =>
      if s.callbacks fd = none then .calling [] writable else .checked true fd [] writable
  | [], [] => .top

inductive PollAction where
  | addCallback (fd : Nat) (flag : PollFlag) (ch : Nat)
  | delCallback (fd : Nat) (flag : PollFlag)
  | blockRemoveFd (t fd : Nat)
  | removeReturns (t fd : Nat)
  /-- A wakeup without a signal. -/
  | wakes (t fd : Nat)
  | top
  | copy
  | select (readyR readyW : Finset Nat)
  /-- `select` fails with EINTR. -/
  | interrupted
  | check
  | call
  | returns

def PollMgr.step (s : PollMgr) : PollAction → Option PollMgr
  | .addCallback fd flag ch => s.addCallback fd flag ch
  | .delCallback fd flag => s.delCallback fd flag
  | .blockRemoveFd t fd => s.blockRemoveFd t fd
  | .removeReturns t fd => s.removeReturns t fd
  | .wakes t fd => (s.changedone.wake (t, fd)).map fun c => { s with changedone := c }
  | .top => if s.stage = .top then some s.wakeRemovers else none
  | .copy =>
      if s.stage = .copying then some { s with stage := .selecting s.aio.toFdSets } else none
  | .select readyR readyW =>
      match s.stage with
      | .selecting sets =>
          -- the pipe is ready when there is a byte in it
          if s.aio.pipefd ∈ readyR ↔ 0 < s.aio.bytes then
            (sets.waitReady s.aio.pipefd s.aio.bytes readyR readyW).map fun scan =>
              { s with
                aio := { s.aio with bytes := scan.bytes }
                stage := .calling scan.readable scan.writable }
          else none
      | _ => none
  | .interrupted =>
      match s.stage with
      | .selecting _ => some { s with stage := .calling [] [] }
      | _ => none
  | .check =>
      match s.stage with
      | .calling readable writable => some { s with stage := s.check readable writable }
      | _ => none
  | .call =>
      match s.stage with
      | .checked write fd readable writable =>
          -- `callbacks_[fd]` is read again, and a null pointer ends the process
          (s.callbacks fd).map fun cb =>
            { s with stage := .inCallback write cb fd readable writable }
      | _ => none
  | .returns =>
      match s.stage with
      | .inCallback _ _ _ readable writable => some { s with stage := .calling readable writable }
      | _ => none

def pollMgr (pipefd : Nat) : System PollMgr PollAction where
  init s := s = .create pipefd
  step := PollMgr.step

/-! ### What the poll thread can do -/

/-- The steps of the poll thread. -/
def PollAction.polls : PollAction → Bool
  | .top | .copy | .select _ _ | .interrupted | .check | .call | .returns => true
  | _ => false

inductive PollMgr.Polled (s : PollMgr) : PollAction → PollMgr → Prop
  | top (hstage : s.stage = .top) : s.Polled .top s.wakeRemovers
  | copy (hstage : s.stage = .copying) :
      s.Polled .copy { s with stage := .selecting s.aio.toFdSets }
  | select {sets : FdSets} {readyR readyW : Finset Nat} {scan : Scan}
      (hstage : s.stage = .selecting sets) (hpipe : s.aio.pipefd ∈ readyR ↔ 0 < s.aio.bytes)
      (hscan : sets.waitReady s.aio.pipefd s.aio.bytes readyR readyW = some scan) :
      s.Polled (.select readyR readyW)
        { s with
          aio := { s.aio with bytes := scan.bytes }
          stage := .calling scan.readable scan.writable }
  | interrupted {sets : FdSets} (hstage : s.stage = .selecting sets) :
      s.Polled .interrupted { s with stage := .calling [] [] }
  | check {readable writable : List Nat} (hstage : s.stage = .calling readable writable) :
      s.Polled .check { s with stage := s.check readable writable }
  | call {write : Bool} {fd cb : Nat} {readable writable : List Nat}
      (hstage : s.stage = .checked write fd readable writable) (hcb : s.callbacks fd = some cb) :
      s.Polled .call { s with stage := .inCallback write cb fd readable writable }
  | returns {write : Bool} {cb fd : Nat} {readable writable : List Nat}
      (hstage : s.stage = .inCallback write cb fd readable writable) :
      s.Polled .returns { s with stage := .calling readable writable }

theorem PollMgr.polled_of_step {s s' : PollMgr} {action : PollAction}
    (hpolls : action.polls = true) (h : s.step action = some s') : s.Polled action s' := by
  cases action with
  | top =>
      simp only [PollMgr.step] at h
      split at h
      · next hstage =>
          cases h
          exact .top hstage
      · cases h
  | copy =>
      simp only [PollMgr.step] at h
      split at h
      · next hstage =>
          cases h
          exact .copy hstage
      · cases h
  | select readyR readyW =>
      simp only [PollMgr.step] at h
      split at h
      · next sets hstage =>
          split at h
          · next hpipe =>
              obtain ⟨scan, hscan, rfl⟩ := Option.map_eq_some_iff.mp h
              exact .select hstage hpipe hscan
          · cases h
      · cases h
  | interrupted =>
      simp only [PollMgr.step] at h
      split at h
      · next sets hstage =>
          cases h
          exact .interrupted hstage
      · cases h
  | check =>
      simp only [PollMgr.step] at h
      split at h
      · next readable writable hstage =>
          cases h
          exact .check hstage
      · cases h
  | call =>
      simp only [PollMgr.step] at h
      split at h
      · next write fd readable writable hstage =>
          obtain ⟨cb, hcb, rfl⟩ := Option.map_eq_some_iff.mp h
          exact .call hstage hcb
      · cases h
  | returns =>
      simp only [PollMgr.step] at h
      split at h
      · next write cb fd readable writable hstage =>
          cases h
          exact .returns hstage
      · cases h
  | _ => cases hpolls

/-- The head of a loop takes a descriptor from one of the lists, or both are empty. -/
theorem PollMgr.check_cases (s : PollMgr) (readable writable : List Nat) :
    s.check readable writable = .top ∨
      ∃ write fd readable' writable', (fd ∈ readable ∨ fd ∈ writable) ∧
        readable' ⊆ readable ∧ writable' ⊆ writable ∧
        readable'.length + writable'.length + 1 = readable.length + writable.length ∧
        (s.check readable writable = .calling readable' writable' ∨
          s.callbacks fd ≠ none ∧
            s.check readable writable = .checked write fd readable' writable') := by
  rcases readable with _ | ⟨fd, readable⟩
  · rcases writable with _ | ⟨fd, writable⟩
    · exact .inl rfl
    · refine .inr ⟨true, fd, [], writable, .inr List.mem_cons_self, List.Subset.refl _,
        List.subset_cons_self _ _, by simp, ?_⟩
      by_cases hnone : s.callbacks fd = none
      · exact .inl (if_pos hnone)
      · exact .inr ⟨hnone, if_neg hnone⟩
  · refine .inr ⟨false, fd, readable, writable, .inl List.mem_cons_self,
      List.subset_cons_self _ _, List.Subset.refl _, by simp; omega, ?_⟩
    by_cases hnone : s.callbacks fd = none
    · exact .inl (if_pos hnone)
    · exact .inr ⟨hnone, if_neg hnone⟩

/-! ### The invariant -/

/-- The descriptor whose callback the poll thread is in. -/
def PollStage.calls : PollStage → Option Nat
  | .inCallback _ _ fd _ _ => some fd
  | _ => none

theorem PollStage.eq_of_calls {stage : PollStage} {fd : Nat} (h : stage.calls = some fd) :
    ∃ write cb readable writable, stage = .inCallback write cb fd readable writable := by
  cases stage with
  | inCallback write cb x readable writable =>
      cases h
      exact ⟨write, cb, readable, writable, rfl⟩
  | _ => cases h

/-- Nobody touches the pipe; everything else is allowed. -/
def PollMgr.OffPipe (s : PollMgr) : PollAction → Prop
  | .addCallback fd _ _ | .delCallback fd _ | .blockRemoveFd _ fd => fd ≠ s.aio.pipefd
  | _ => True

instance (s : PollMgr) : DecidablePred s.OffPipe
  | .addCallback fd _ _ | .delCallback fd _ | .blockRemoveFd _ fd =>
      inferInstanceAs (Decidable (fd ≠ s.aio.pipefd))
  | .removeReturns _ _ | .wakes _ _ | .top | .copy | .select _ _ | .interrupted | .check | .call
  | .returns => inferInstanceAs (Decidable True)

/-- How the connections use the poll manager: a descriptor is not added while a thread removes it,
    `del_callback` is called from the callbacks of the descriptor, and nobody touches the pipe.
    There are no wakeups without a signal. -/
def PollMgr.Orderly (s : PollMgr) : PollAction → Prop
  | .addCallback fd _ _ =>
      fd ≠ s.aio.pipefd ∧ (∀ p ∈ s.changedone.waiting, p.2 ≠ fd) ∧
        ∀ p ∈ s.changedone.woken, p.2 ≠ fd
  | .delCallback fd _ => fd ≠ s.aio.pipefd ∧ s.stage.calls = some fd
  | .blockRemoveFd _ fd => fd ≠ s.aio.pipefd
  | .wakes _ _ => False
  | _ => True

instance (s : PollMgr) : DecidablePred s.Orderly
  | .addCallback fd _ _ => inferInstanceAs (Decidable (fd ≠ s.aio.pipefd ∧
      (∀ p ∈ s.changedone.waiting, p.2 ≠ fd) ∧ ∀ p ∈ s.changedone.woken, p.2 ≠ fd))
  | .delCallback fd _ =>
      inferInstanceAs (Decidable (fd ≠ s.aio.pipefd ∧ s.stage.calls = some fd))
  | .blockRemoveFd _ fd => inferInstanceAs (Decidable (fd ≠ s.aio.pipefd))
  | .wakes _ _ => inferInstanceAs (Decidable False)
  | .removeReturns _ _ | .top | .copy | .select _ _ | .interrupted | .check | .call | .returns =>
      inferInstanceAs (Decidable True)

theorem PollMgr.Orderly.offPipe {s : PollMgr} {action : PollAction} (h : s.Orderly action) :
    s.OffPipe action := by
  cases action with
  | addCallback fd flag ch => exact h.1
  | delCallback fd flag => exact h.1
  | blockRemoveFd t fd => exact h
  | _ => trivial

/-- The poll thread is at `fd`, or may come to it in this round. -/
def PollStage.Names (fd : Nat) : PollStage → Prop
  | .top | .copying => False
  | .selecting sets => fd ∈ sets.rfds ∪ sets.wfds
  | .calling readable writable => fd ∈ readable ∨ fd ∈ writable
  | .checked _ fd' readable writable | .inCallback _ _ fd' readable writable =>
      fd = fd' ∨ fd ∈ readable ∨ fd ∈ writable

/-- Nothing waits for the descriptor. -/
def FdSets.Unwatched (s : FdSets) (fd : Nat) : Prop := fd ∉ s.rfds ∪ s.wfds

/-- The poll thread is about to wait for the descriptors. -/
def PollStage.Waits : PollStage → Prop
  | .copying | .selecting _ => True
  | _ => False

/-- What `wait_ready` rests on. -/
structure PollMgr.Scans (pipefd : Nat) (s : PollMgr) : Prop where
  pipe : s.aio.pipefd = pipefd
  sound : s.aio.toFdSets.Sound pipefd
  copied : ∀ sets, s.stage = .selecting sets → sets.Sound pipefd

structure PollMgr.Inv (pipefd : Nat) (s : PollMgr) : Prop extends s.Scans pipefd where
  waiting : ∀ p ∈ s.changedone.waiting, s.pendingChange = true ∧ s.aio.toFdSets.Unwatched p.2
  woken : ∀ p ∈ s.changedone.woken, s.aio.toFdSets.Unwatched p.2 ∧ ¬ s.stage.Names p.2
  gone : ∀ fd ∈ s.gone,
    s.aio.toFdSets.Unwatched fd ∧ ¬ s.stage.Names fd ∧ s.callbacks fd = none
  registered : ∀ write fd readable writable, s.stage = .checked write fd readable writable →
    s.callbacks fd ≠ none
  /-- A change that the poll thread has not seen keeps it from waiting. -/
  signalled : s.pendingChange = true → s.stage.Waits → 0 < s.aio.bytes
  current : ∀ sets, s.stage = .selecting sets →
    (s.aio.rfds ⊆ sets.rfds ∧ s.aio.wfds ⊆ sets.wfds) ∨ 0 < s.aio.bytes

theorem PollMgr.scans_create (pipefd : Nat) : (PollMgr.create pipefd).Scans pipefd where
  pipe := rfl
  sound := SelectAio.sound_create pipefd
  copied := nofun

theorem PollMgr.inv_create (pipefd : Nat) : (PollMgr.create pipefd).Inv pipefd where
  toScans := PollMgr.scans_create pipefd
  waiting := nofun
  woken := nofun
  gone := fun fd hfd => absurd hfd (Finset.notMem_empty fd)
  registered := nofun
  signalled := nofun
  current := nofun

/-! ### The steps of other threads -/

theorem SelectAio.unwatched_watchFd {s : SelectAio} {fd x : Nat} (flag : PollFlag)
    (h : s.toFdSets.Unwatched x) (hx : x ≠ fd) : (s.watchFd fd flag).toFdSets.Unwatched x := by
  simp only [FdSets.Unwatched, Finset.mem_union, not_or] at h ⊢
  cases flag <;> simp [SelectAio.watchFd, h, hx]

/-- All that `unwatch_fd` changes. -/
theorem SelectAio.unwatchFd_eq {s s' : SelectAio} {fd : Nat} {flag : PollFlag} {idle : Bool}
    (h : s.unwatchFd fd flag = some (idle, s')) :
    s'.pipefd = s.pipefd ∧ s'.rfds ⊆ s.rfds ∧ s'.wfds ⊆ s.wfds ∧ s.bytes ≤ s'.bytes ∧
      (flag = .rdwr → s'.toFdSets.Unwatched fd ∧ idle = true ∧ s'.bytes = s.bytes + 1) := by
  obtain ⟨sets, hclear, heq⟩ := Option.map_eq_some_iff.mp h
  cases heq
  obtain ⟨-, hr, hw, -⟩ := FdSets.clear_subset hclear
  refine ⟨rfl, hr, hw, ?_, ?_⟩
  · show s.bytes ≤ if flag = .rdwr then s.bytes + 1 else s.bytes
    split <;> omega
  · rintro rfl
    cases hclear
    refine ⟨?_, ?_, rfl⟩
    · simp [FdSets.Unwatched]
    · simp [FdSets.idle]

theorem SelectAio.unwatchFd_idle {s s' : SelectAio} {fd : Nat} {flag : PollFlag} {idle : Bool}
    (h : s.unwatchFd fd flag = some (idle, s')) : idle = true ↔ s'.toFdSets.Unwatched fd := by
  obtain ⟨sets, -, heq⟩ := Option.map_eq_some_iff.mp h
  cases heq
  simp [FdSets.idle, FdSets.Unwatched]

theorem FdSets.Unwatched.mono {s s' : FdSets} {fd : Nat} (h : s.Unwatched fd)
    (hr : s'.rfds ⊆ s.rfds) (hw : s'.wfds ⊆ s.wfds) : s'.Unwatched fd :=
  fun hmem => h (Finset.union_subset_union hr hw hmem)

section Steps

variable {pipefd : Nat} {s s' : PollMgr}

theorem PollMgr.Scans.unwatchFd {fd : Nat} {flag : PollFlag} {idle : Bool} {aio : SelectAio}
    (hs : s.Scans pipefd) (hfd : fd ≠ s.aio.pipefd)
    (h : s.aio.unwatchFd fd flag = some (idle, aio)) :
    aio.pipefd = pipefd ∧ aio.toFdSets.Sound pipefd := by
  refine ⟨(SelectAio.unwatchFd_eq h).1.trans hs.pipe, ?_⟩
  rw [← hs.pipe]
  exact FdSets.Sound.unwatchFd (hs.pipe ▸ hs.sound) hfd h

theorem PollMgr.check_waits (s : PollMgr) (readable writable : List Nat) :
    ¬ (s.check readable writable).Waits := by
  rcases s.check_cases readable writable with
    heq | ⟨write, x, readable', writable', -, -, -, -, heq | ⟨-, heq⟩⟩ <;> rw [heq] <;> exact id

theorem PollMgr.Scans.step {action : PollAction} (hs : s.Scans pipefd) (hoff : s.OffPipe action)
    (h : s.step action = some s') : s'.Scans pipefd := by
  rcases hpolls : action.polls with _ | _
  · cases action with
    | addCallback fd flag ch =>
        simp only [PollMgr.step, PollMgr.addCallback] at h
        split at h
        · cases h
          refine ⟨hs.pipe, ?_, hs.copied⟩
          rw [← hs.pipe]
          exact FdSets.Sound.watchFd (hs.pipe ▸ hs.sound) flag hoff
        · cases h
    | delCallback fd flag =>
        obtain ⟨⟨idle, aio⟩, hunwatch, rfl⟩ := Option.map_eq_some_iff.mp h
        obtain ⟨hpipe, hsound⟩ := hs.unwatchFd hoff hunwatch
        exact ⟨hpipe, hsound, hs.copied⟩
    | blockRemoveFd t fd =>
        simp only [PollMgr.step, PollMgr.blockRemoveFd] at h
        obtain ⟨⟨idle, aio⟩, hunwatch, rfl⟩ := Option.map_eq_some_iff.mp h
        obtain ⟨hpipe, hsound⟩ := hs.unwatchFd hoff hunwatch
        exact ⟨hpipe, hsound, hs.copied⟩
    | removeReturns t fd =>
        obtain ⟨c, -, rfl⟩ := Option.map_eq_some_iff.mp h
        exact ⟨hs.pipe, hs.sound, hs.copied⟩
    | wakes t fd =>
        obtain ⟨c, -, rfl⟩ := Option.map_eq_some_iff.mp h
        exact ⟨hs.pipe, hs.sound, hs.copied⟩
    | _ => cases hpolls
  · cases PollMgr.polled_of_step hpolls h with
    | copy hstage =>
        refine ⟨hs.pipe, hs.sound, fun sets h => ?_⟩
        cases h
        exact hs.sound
    | @check readable writable hstage =>
        refine ⟨hs.pipe, hs.sound, fun sets h => ?_⟩
        have hselecting : s.check readable writable = .selecting sets := h
        exact absurd (by rw [hselecting]; trivial) (s.check_waits readable writable)
    | _ => exact ⟨hs.pipe, hs.sound, nofun⟩

theorem PollMgr.Inv.addCallback {fd ch : Nat} {flag : PollFlag} (hs : s.Inv pipefd)
    (horderly : s.Orderly (.addCallback fd flag ch))
    (h : s.addCallback fd flag ch = some s') : s'.Inv pipefd := by
  have hscans := hs.toScans.step horderly.offPipe h
  obtain ⟨-, hwaiting, hwoken⟩ := horderly
  unfold PollMgr.addCallback at h
  split at h
  · obtain rfl := Option.some.inj h
    refine ⟨hscans, ?_, ?_, ?_, ?_, fun _ _ => Nat.succ_pos _, fun _ _ => .inr (Nat.succ_pos _)⟩
    · intro p hp
      obtain ⟨hpending, hunwatched⟩ := hs.waiting p hp
      exact ⟨hpending, SelectAio.unwatched_watchFd flag hunwatched (hwaiting p hp)⟩
    · intro p hp
      obtain ⟨hunwatched, hnames⟩ := hs.woken p hp
      exact ⟨SelectAio.unwatched_watchFd flag hunwatched (hwoken p hp), hnames⟩
    · intro x hx
      obtain ⟨hne, hx⟩ := Finset.mem_erase.mp hx
      obtain ⟨hunwatched, hnames, hcallback⟩ := hs.gone x hx
      exact ⟨SelectAio.unwatched_watchFd flag hunwatched hne, hnames,
        (Function.update_of_ne hne _ _).trans hcallback⟩
    · intro write x readable writable hstage
      show Function.update s.callbacks fd (some ch) x ≠ none
      by_cases hx : x = fd
      · rw [hx, Function.update_self]
        nofun
      · rw [Function.update_of_ne hx]
        exact hs.registered write x readable writable hstage
  · cases h

theorem PollMgr.Inv.delCallback {fd : Nat} {flag : PollFlag} (hs : s.Inv pipefd)
    (horderly : s.Orderly (.delCallback fd flag)) (h : s.delCallback fd flag = some s') :
    s'.Inv pipefd := by
  have hscans := hs.toScans.step horderly.offPipe h
  obtain ⟨⟨idle, aio⟩, hunwatch, rfl⟩ := Option.map_eq_some_iff.mp h
  obtain ⟨-, hr, hw, -⟩ := SelectAio.unwatchFd_eq hunwatch
  obtain ⟨write, cb, readable, writable, hstage⟩ := PollStage.eq_of_calls horderly.2
  refine ⟨hscans, ?_, ?_, ?_, ?_, ?_, ?_⟩
  · exact fun p hp => ⟨(hs.waiting p hp).1, (hs.waiting p hp).2.mono hr hw⟩
  · exact fun p hp => ⟨(hs.woken p hp).1.mono hr hw, (hs.woken p hp).2⟩
  · intro x hx
    obtain ⟨hunwatched, hnames, hcallback⟩ := hs.gone x hx
    refine ⟨hunwatched.mono hr hw, hnames, ?_⟩
    show (if idle then Function.update s.callbacks fd none else s.callbacks) x = none
    split
    · by_cases hne : x = fd
      · rw [hne, Function.update_self]
      · rw [Function.update_of_ne hne]
        exact hcallback
    · exact hcallback
  · intro _ _ _ _ hchecked
    cases hstage.symm.trans hchecked
  · intro _ hwaits
    rw [hstage] at hwaits
    cases hwaits
  · intro _ hselecting
    cases hstage.symm.trans hselecting

theorem PollMgr.Inv.blockRemoveFd {t fd : Nat} (hs : s.Inv pipefd)
    (horderly : s.Orderly (.blockRemoveFd t fd)) (h : s.blockRemoveFd t fd = some s') :
    s'.Inv pipefd := by
  have hscans := hs.toScans.step horderly.offPipe h
  obtain ⟨⟨idle, aio⟩, hunwatch, rfl⟩ := Option.map_eq_some_iff.mp h
  obtain ⟨-, hr, hw, -, hrdwr⟩ := SelectAio.unwatchFd_eq hunwatch
  obtain ⟨hunwatched, -, hbytes⟩ := hrdwr rfl
  have hpos : 0 < aio.bytes := by omega
  refine ⟨hscans, ?_, ?_, ?_, hs.registered, fun _ _ => hpos, fun _ _ => .inr hpos⟩
  · intro p hp
    refine ⟨rfl, ?_⟩
    rcases List.mem_cons.mp hp with rfl | hp
    · exact hunwatched
    · exact (hs.waiting p hp).2.mono hr hw
  · exact fun p hp => ⟨(hs.woken p hp).1.mono hr hw, (hs.woken p hp).2⟩
  · exact fun x hx => ⟨(hs.gone x hx).1.mono hr hw, (hs.gone x hx).2⟩

theorem PollMgr.Inv.removeReturns {t fd : Nat} (hs : s.Inv pipefd)
    (h : s.removeReturns t fd = some s') : s'.Inv pipefd := by
  obtain ⟨c, hresume, rfl⟩ := Option.map_eq_some_iff.mp h
  obtain ⟨hmem, hsame, hsubset⟩ := Cond.resume_subset hresume
  obtain ⟨hunwatched, hnames⟩ := hs.woken _ hmem
  refine ⟨⟨hs.pipe, hs.sound, hs.copied⟩, fun p hp => hs.waiting p (hsame ▸ hp),
    fun p hp => hs.woken p (hsubset hp), ?_, ?_, hs.signalled, hs.current⟩
  · intro x hx
    show s.aio.toFdSets.Unwatched x ∧ ¬ s.stage.Names x ∧
      Function.update s.callbacks fd none x = none
    by_cases hne : x = fd
    · rw [hne, Function.update_self]
      exact ⟨hunwatched, hnames, rfl⟩
    · rw [Function.update_of_ne hne]
      exact hs.gone x (Finset.mem_of_mem_insert_of_ne hx hne)
  · intro write x readable writable hstage
    have hne : x ≠ fd := by
      rintro rfl
      rw [hstage] at hnames
      exact hnames (.inl rfl)
    show Function.update s.callbacks fd none x ≠ none
    rw [Function.update_of_ne hne]
    exact hs.registered write x readable writable hstage

/-! ### The steps of the poll thread -/

theorem PollMgr.Inv.top (hs : s.Inv pipefd) : s.wakeRemovers.Inv pipefd := by
  -- before the block nobody sleeps unless a change is pending, and after it nobody sleeps
  have hwoken : ∀ p ∈ s.wakeRemovers.changedone.woken, s.aio.toFdSets.Unwatched p.2 := by
    intro p hp
    simp only [PollMgr.wakeRemovers] at hp
    split at hp
    · rcases List.mem_append.mp hp with hp | hp
      · exact (hs.waiting p hp).2
      · exact (hs.woken p hp).1
    · exact (hs.woken p hp).1
  have hwaiting : ∀ p, p ∉ s.wakeRemovers.changedone.waiting := by
    intro p hp
    simp only [PollMgr.wakeRemovers] at hp
    split at hp
    · cases hp
    · next hpending => exact hpending (hs.waiting p hp).1
  exact ⟨⟨hs.pipe, hs.sound, nofun⟩, fun p hp => absurd hp (hwaiting p),
    fun p hp => ⟨hwoken p hp, id⟩, fun fd hfd => ⟨(hs.gone fd hfd).1, id, (hs.gone fd hfd).2.2⟩,
    nofun, nofun, nofun⟩

theorem PollMgr.Inv.copy (hs : s.Inv pipefd) (hstage : s.stage = .copying) :
    { s with stage := .selecting s.aio.toFdSets }.Inv pipefd where
  pipe := hs.pipe
  sound := hs.sound
  copied := fun sets h => by
    cases h
    exact hs.sound
  waiting := hs.waiting
  woken := fun p hp => ⟨(hs.woken p hp).1, (hs.woken p hp).1⟩
  gone := fun fd hfd => ⟨(hs.gone fd hfd).1, (hs.gone fd hfd).1, (hs.gone fd hfd).2.2⟩
  registered := nofun
  signalled := fun hpending _ => hs.signalled hpending (by rw [hstage]; trivial)
  current := fun sets h => by
    cases h
    exact .inl ⟨Finset.Subset.refl _, Finset.Subset.refl _⟩

/-- The poll thread goes on to a stage that is not a wait and names no more descriptors. -/
theorem PollMgr.Inv.goesOn {stage : PollStage} {bytes : Nat} (hs : s.Inv pipefd)
    (hnames : ∀ fd, stage.Names fd → s.stage.Names fd) (hwaits : ¬ stage.Waits)
    (hregistered : ∀ write fd readable writable, stage = .checked write fd readable writable →
      s.callbacks fd ≠ none) :
    { s with aio := { s.aio with bytes := bytes }, stage := stage }.Inv pipefd := by
  have hnot : ∀ sets, stage ≠ .selecting sets := by
    rintro sets rfl
    exact hwaits trivial
  exact ⟨⟨hs.pipe, hs.sound, fun sets h => absurd h (hnot sets)⟩, hs.waiting,
    fun p hp => ⟨(hs.woken p hp).1, fun h => (hs.woken p hp).2 (hnames _ h)⟩,
    fun fd hfd => ⟨(hs.gone fd hfd).1, fun h => (hs.gone fd hfd).2.1 (hnames _ h),
      (hs.gone fd hfd).2.2⟩,
    hregistered, fun _ h => absurd h hwaits, fun sets h => absurd h (hnot sets)⟩

/-- `select` has returned, so something is ready. -/
theorem FdSets.ready_of_waitReady {sets : FdSets} {pipefd bytes : Nat}
    {readyR readyW : Finset Nat} {scan : Scan}
    (h : sets.waitReady pipefd bytes readyR readyW = some scan) :
    (∃ fd ∈ sets.rfds, fd ∈ readyR) ∨ ∃ fd ∈ sets.wfds, fd ∈ readyW := by
  by_contra hnone
  push Not at hnone
  rw [FdSets.waitReady, if_pos] at h
  · cases h
  · constructor <;> refine Finset.eq_empty_of_forall_notMem fun x hx => ?_
    · obtain ⟨hx, -⟩ := Finset.mem_filter.mp hx
      exact hnone.1 x (Finset.mem_inter.mp hx).1 (Finset.mem_inter.mp hx).2
    · obtain ⟨hx, -⟩ := Finset.mem_filter.mp hx
      exact hnone.2 x (Finset.mem_inter.mp hx).1 (Finset.mem_inter.mp hx).2

section Reported

variable {sets : FdSets} {pipefd bytes : Nat} {readyR readyW : Finset Nat} {scan : Scan}

/-- What is reported was waited for. -/
theorem FdSets.mem_of_waitReady (hsets : sets.Sound pipefd)
    (hpipe : pipefd ∈ readyR ↔ 0 < bytes)
    (h : sets.waitReady pipefd bytes readyR readyW = some scan) (fd : Nat)
    (hfd : fd ∈ scan.readable ∨ fd ∈ scan.writable) : fd ∈ sets.rfds ∪ sets.wfds := by
  obtain ⟨scan', hscan', hreadable, hwritable, -⟩ :=
    hsets.waitReady hpipe (FdSets.ready_of_waitReady h)
  obtain rfl := Option.some.inj (h.symm.trans hscan')
  rcases hfd with hfd | hfd
  · exact Finset.mem_union_left _ ((hreadable fd).mp hfd).1
  · exact Finset.mem_union_right _ ((hwritable fd).mp hfd).1

theorem FdSets.ordered_of_waitReady (hsets : sets.Sound pipefd)
    (hpipe : pipefd ∈ readyR ↔ 0 < bytes)
    (h : sets.waitReady pipefd bytes readyR readyW = some scan) :
    scan.readable.Pairwise (· < ·) ∧ scan.writable.Pairwise (· < ·) := by
  obtain ⟨scan', hscan', -, -, hreadable, hwritable, -⟩ :=
    hsets.waitReady hpipe (FdSets.ready_of_waitReady h)
  obtain rfl := Option.some.inj (h.symm.trans hscan')
  exact ⟨hreadable, hwritable⟩

end Reported

theorem PollMgr.names_check {fd : Nat} {readable writable : List Nat}
    (h : (s.check readable writable).Names fd) : fd ∈ readable ∨ fd ∈ writable := by
  rcases s.check_cases readable writable with
    htop | ⟨write, x, readable', writable', hx, hr, hw, -, hcalling | ⟨-, hchecked⟩⟩
  · rw [htop] at h
    cases h
  · rw [hcalling] at h
    exact h.imp (fun hmem => hr hmem) fun hmem => hw hmem
  · rw [hchecked] at h
    rcases h with rfl | h
    · exact hx
    · exact h.imp (fun hmem => hr hmem) fun hmem => hw hmem

theorem PollMgr.check_ne_inCallback (s : PollMgr) (readable writable : List Nat) {write : Bool}
    {cb fd : Nat} {readable' writable' : List Nat} :
    s.check readable writable ≠ .inCallback write cb fd readable' writable' := by
  rcases s.check_cases readable writable with
    heq | ⟨write, x, rest, rest', -, -, -, -, heq | ⟨-, heq⟩⟩ <;> rw [heq] <;> nofun

theorem PollMgr.check_registered {write : Bool} {fd : Nat}
    {readable writable readable' writable' : List Nat}
    (h : s.check readable writable = .checked write fd readable' writable') :
    s.callbacks fd ≠ none := by
  rcases s.check_cases readable writable with
    heq | ⟨write, x, rest, rest', -, -, -, -, heq | ⟨hregistered, heq⟩⟩ <;>
      cases heq.symm.trans h
  exact hregistered

theorem PollMgr.Inv.step {action : PollAction} (hs : s.Inv pipefd) (horderly : s.Orderly action)
    (h : s.step action = some s') : s'.Inv pipefd := by
  rcases hpolls : action.polls with _ | _
  · cases action with
    | addCallback fd flag ch => exact hs.addCallback horderly h
    | delCallback fd flag => exact hs.delCallback horderly h
    | blockRemoveFd t fd => exact hs.blockRemoveFd horderly h
    | removeReturns t fd => exact hs.removeReturns h
    | wakes t fd => cases horderly
    | _ => cases hpolls
  · cases PollMgr.polled_of_step hpolls h with
    | top hstage => exact hs.top
    | copy hstage => exact hs.copy hstage
    | select hstage hpipe hscan =>
        rw [hs.pipe] at hpipe hscan
        refine hs.goesOn ?_ id nofun
        intro fd hfd
        rw [hstage]
        exact FdSets.mem_of_waitReady (hs.copied _ hstage) hpipe hscan fd hfd
    | interrupted hstage =>
        exact hs.goesOn (fun fd hfd => by simp [PollStage.Names] at hfd) id nofun
    | check hstage =>
        refine hs.goesOn ?_ (s.check_waits _ _) ?_
        · intro fd hfd
          rw [hstage]
          exact PollMgr.names_check hfd
        · intro write fd _ _ hchecked
          exact PollMgr.check_registered hchecked
    | call hstage hcb =>
        refine hs.goesOn ?_ id nofun
        intro x hx
        rw [hstage]
        exact hx
    | returns hstage =>
        refine hs.goesOn ?_ id nofun
        intro x hx
        rw [hstage]
        exact .inr hx

end Steps

theorem pollMgr_invariant {pipefd : Nat} {s : PollMgr}
    (h : (pollMgr pipefd).Reach PollMgr.Orderly s) : s.Inv pipefd := by
  refine h.invariant (P := PollMgr.Inv pipefd) ?_ ?_
  · rintro _ rfl
    exact PollMgr.inv_create pipefd
  · exact fun s s' action hs horderly hstep => hs.step horderly hstep

/-! ### What the poll manager guarantees -/

theorem pollMgr_scans {pipefd : Nat} {s : PollMgr}
    (h : (pollMgr pipefd).Reach PollMgr.OffPipe s) : s.Scans pipefd := by
  refine h.invariant (P := PollMgr.Scans pipefd) ?_ ?_
  · rintro _ rfl
    exact PollMgr.scans_create pipefd
  · exact fun s s' action hs hoff hstep => hs.step hoff hstep

/-- **No descriptor is overlooked.**  `highfds_` is the greatest descriptor that `select` is given,
    whatever was watched and unwatched before but the pipe, so `wait_ready` reports exactly those
    that are waited for and ready, each once and in order, and takes a byte from the pipe. -/
theorem wait_ready_reports_ready {pipefd : Nat} {s : PollMgr} {sets : FdSets}
    {readyR readyW : Finset Nat} (h : (pollMgr pipefd).Reach PollMgr.OffPipe s)
    (hstage : s.stage = .selecting sets) (hpipe : pipefd ∈ readyR ↔ 0 < s.aio.bytes)
    (hready : (∃ fd ∈ sets.rfds, fd ∈ readyR) ∨ ∃ fd ∈ sets.wfds, fd ∈ readyW) :
    sets.highfds ∈ sets.rfds ∪ sets.wfds ∧ (∀ fd ∈ sets.rfds ∪ sets.wfds, fd ≤ sets.highfds) ∧
    ∃ s' readable writable, s.step (.select readyR readyW) = some s' ∧
      s'.stage = .calling readable writable ∧
      (∀ fd, fd ∈ readable ↔ fd ∈ sets.rfds ∧ fd ∈ readyR ∧ fd ≠ pipefd) ∧
      (∀ fd, fd ∈ writable ↔ fd ∈ sets.wfds ∧ fd ∈ readyW) ∧
      readable.Pairwise (· < ·) ∧ writable.Pairwise (· < ·) ∧
      s'.aio.bytes = s.aio.bytes - 1 := by
  have hs := pollMgr_scans h
  have hsets := hs.copied sets hstage
  obtain ⟨scan, hscan, hreadable, hwritable, hordered, hordered', hbytes⟩ :=
    hsets.waitReady hpipe hready
  have hstep : s.step (.select readyR readyW) = some
      { s with
        aio := { s.aio with bytes := scan.bytes }
        stage := .calling scan.readable scan.writable } := by
    simp only [PollMgr.step, hstage]
    rw [hs.pipe, if_pos hpipe, hscan]
    rfl
  exact ⟨hsets.high, hsets.le, _, scan.readable, scan.writable, hstep, rfl, hreadable, hwritable,
    hordered, hordered', hbytes⟩

/-- Three connections are watched and one is dropped again, by a thread that is in no callback;
    the pipe and one of the others are ready. -/
theorem wait_ready_reports_ready_first :
    ∃ s s' readable writable, (pollMgr 3).Reach PollMgr.OffPipe s ∧
      s.step (.select {3, 5} ∅) = some s' ∧ s'.stage = .calling readable writable ∧
      5 ∈ readable ∧ 3 ∉ readable ∧ 7 ∉ readable ∧ 7 ∉ writable ∧ s'.aio.bytes = 3 := by
  obtain ⟨s, hs, hview⟩ : ∃ s, (pollMgr 3).Reach PollMgr.OffPipe s ∧
      (s.stage, s.aio.bytes) = (.selecting ⟨{7, 5, 3}, {7}, 7⟩, 4) :=
    System.Reach.of_exec (fun s action => decide (s.OffPipe action))
      [.addCallback 5 .rdonly 50, .addCallback 7 .rdwr 70, .addCallback 9 .rdonly 90,
        .delCallback 9 .rdwr, .top, .copy]
      rfl (fun _ _ h => of_decide_eq_true h) (by decide +kernel)
  simp only [Prod.mk.injEq] at hview
  obtain ⟨hstage, hbytes⟩ := hview
  have hpipe : 3 ∈ ({3, 5} : Finset Nat) ↔ 0 < s.aio.bytes := by rw [hbytes]; decide
  have hready : (∃ fd ∈ ({7, 5, 3} : Finset Nat), fd ∈ ({3, 5} : Finset Nat)) ∨
      ∃ fd ∈ ({7} : Finset Nat), fd ∈ (∅ : Finset Nat) := .inl ⟨5, by decide, by decide⟩
  obtain ⟨-, -, s', readable, writable, hstep, hcalling, hreadable, hwritable, -, -, hbyte⟩ :=
    wait_ready_reports_ready hs hstage hpipe hready
  refine ⟨s, s', readable, writable, hs, hstep, hcalling, ?_, ?_, ?_, ?_, by rw [hbyte, hbytes]⟩
  · exact (hreadable 5).mpr (by decide)
  · exact fun hmem => absurd ((hreadable 3).mp hmem) (by decide)
  · exact fun hmem => absurd ((hreadable 7).mp hmem) (by decide)
  · exact fun hmem => absurd ((hwritable 7).mp hmem) (by decide)

/-- **A removed descriptor stays silent.**  From the return of `block_remove_fd` until the
    descriptor is added again its callback is gone, and the poll thread does not have the
    descriptor in what is left of its round: it is not in the callback, not about to call it and
    does not wait for it.  The poll thread never calls through a null pointer either, although it
    reads `callbacks_` without the mutex. -/
theorem block_remove_fd_silences {pipefd : Nat} {s : PollMgr}
    (h : (pollMgr pipefd).Reach PollMgr.Orderly s) :
    (∀ fd ∈ s.gone, s.callbacks fd = none ∧ ¬ s.stage.Names fd) ∧
    (∀ write fd readable writable, s.stage = .checked write fd readable writable →
      (s.step .call).isSome) := by
  have hs := pollMgr_invariant h
  constructor
  · exact fun fd hfd => ⟨(hs.gone fd hfd).2.2, (hs.gone fd hfd).2.1⟩
  · intro write fd readable writable hstage
    have hregistered := hs.registered write fd readable writable hstage
    simp only [PollMgr.step, hstage, Option.isSome_map]
    exact Option.isSome_iff_ne_none.mpr hregistered

/-- A descriptor is removed while the poll thread is in its callback. -/
theorem block_remove_fd_silences_running :
    ∃ s, (pollMgr 3).Reach PollMgr.Orderly s ∧ 5 ∈ s.gone ∧ s.callbacks 5 = none ∧
      ¬ s.stage.Names 5 := by
  obtain ⟨s, hs, hgone⟩ : ∃ s, (pollMgr 3).Reach PollMgr.Orderly s ∧ s.gone = {5} :=
    System.Reach.of_exec (fun s action => decide (s.Orderly action))
      [.addCallback 5 .rdonly 50, .top, .copy, .select {3, 5} ∅, .check, .call,
        .blockRemoveFd 1 5, .returns, .check, .top, .copy, .removeReturns 1 5]
      rfl (fun _ _ h => of_decide_eq_true h) (by decide +kernel)
  have hmem : 5 ∈ s.gone := by simp [hgone]
  exact ⟨s, hs, hmem, (block_remove_fd_silences hs).1 5 hmem⟩

/-! ### The poll thread comes round -/

/-- The step that wakes the threads in `block_remove_fd`. -/
def PollAction.isTop : PollAction → Bool
  | .top => true
  | _ => false

/-- All descriptors are below this. -/
def fdBound (pipefd : Nat) : Nat := Nat.max maxPollFds (pipefd + 1)

/-- How many steps the poll thread needs to come to the top of its loop. -/
def PollStage.rounds (bound : Nat) : PollStage → Nat
  | .top => 0
  | .copying => 6 * bound + 3
  | .selecting _ => 6 * bound + 2
  | .calling readable writable => 3 * (readable.length + writable.length) + 1
  | .checked _ _ readable writable => 3 * (readable.length + writable.length) + 3
  | .inCallback _ _ _ readable writable => 3 * (readable.length + writable.length) + 2

theorem PollMgr.rounds_check (bound : Nat) (s : PollMgr) (readable writable : List Nat) :
    (s.check readable writable).rounds bound <
      (PollStage.calling readable writable).rounds bound := by
  rcases s.check_cases readable writable with
    heq | ⟨write, x, readable', writable', -, -, -, hlength, heq | ⟨-, heq⟩⟩ <;> rw [heq] <;>
      simp only [PollStage.rounds] <;> omega

/-- The descriptors are in bounds, also in the copy. -/
structure PollMgr.Bounded (bound : Nat) (s : PollMgr) : Prop where
  current : ∀ fd ∈ s.aio.rfds ∪ s.aio.wfds, fd < bound
  copied : ∀ sets, s.stage = .selecting sets → ∀ fd ∈ sets.rfds ∪ sets.wfds, fd < bound

/-- A strictly increasing list of descriptors is no longer than the bound. -/
theorem length_le_of_pairwise_lt {bound : Nat} {l : List Nat} (h : l.Pairwise (· < ·))
    (hlt : ∀ fd ∈ l, fd < bound) : l.length ≤ bound := by
  have hnodup : l.Nodup := h.imp fun hlt => Nat.ne_of_lt hlt
  have hsubset : l ⊆ List.range bound := fun fd hfd => List.mem_range.mpr (hlt fd hfd)
  simpa using (hnodup.subperm hsubset).length_le

section Progress

variable {pipefd : Nat} {s s' : PollMgr} {action : PollAction}

/-- The poll thread's steps other than the one at the top. -/
theorem PollMgr.step_of_polls (hs : s.Inv pipefd) (hpolls : action.polls = true)
    (htop : action.isTop = false) (h : s.step action = some s') :
    ∃ bytes stage, s' = { s with aio := { s.aio with bytes := bytes }, stage := stage } ∧
      (s.stage = .copying ∧ stage = .selecting s.aio.toFdSets ∨
        (∀ sets, stage ≠ .selecting sets) ∧
        ∀ bound, s.Bounded bound → stage.rounds bound < s.stage.rounds bound) := by
  cases PollMgr.polled_of_step hpolls h with
  | top hstage => cases htop
  | copy hstage => exact ⟨s.aio.bytes, _, rfl, .inl ⟨hstage, rfl⟩⟩
  | @select sets readyR readyW scan hstage hpipe hscan =>
      refine ⟨scan.bytes, _, rfl, .inr ⟨nofun, ?_⟩⟩
      intro bound hbounded
      rw [hs.pipe] at hpipe hscan
      have hsets := hs.copied sets hstage
      have hmem := FdSets.mem_of_waitReady hsets hpipe hscan
      have hordered := FdSets.ordered_of_waitReady hsets hpipe hscan
      have hlt := hbounded.copied sets hstage
      have hreadable := length_le_of_pairwise_lt hordered.1
        fun fd hfd => hlt fd (hmem fd (.inl hfd))
      have hwritable := length_le_of_pairwise_lt hordered.2
        fun fd hfd => hlt fd (hmem fd (.inr hfd))
      rw [hstage]
      simp only [PollStage.rounds]
      omega
  | interrupted hstage =>
      refine ⟨s.aio.bytes, _, rfl, .inr ⟨nofun, fun bound _ => ?_⟩⟩
      rw [hstage]
      simp only [PollStage.rounds, List.length_nil]
      omega
  | @check readable writable hstage =>
      refine ⟨s.aio.bytes, _, rfl, .inr ⟨?_, fun bound _ => ?_⟩⟩
      · intro sets hselecting
        exact s.check_waits readable writable (by rw [hselecting]; trivial)
      · rw [hstage]
        exact s.rounds_check bound readable writable
  | call hstage hcb =>
      refine ⟨s.aio.bytes, _, rfl, .inr ⟨nofun, fun bound _ => ?_⟩⟩
      rw [hstage]
      exact Nat.lt_succ_self _
  | returns hstage =>
      refine ⟨s.aio.bytes, _, rfl, .inr ⟨nofun, fun bound _ => ?_⟩⟩
      rw [hstage]
      exact Nat.lt_succ_self _

theorem SelectAio.lt_of_mem_watchFd {s : SelectAio} {bound fd x : Nat} {flag : PollFlag}
    (hlt : ∀ x ∈ s.rfds ∪ s.wfds, x < bound) (hfd : fd < bound)
    (hx : x ∈ (s.watchFd fd flag).rfds ∪ (s.watchFd fd flag).wfds) : x < bound := by
  by_contra hge
  have hunwatched : s.toFdSets.Unwatched x := fun hmem => hge (hlt x hmem)
  refine SelectAio.unwatched_watchFd flag hunwatched ?_ hx
  rintro rfl
  exact hge hfd

/-- The steps of the other threads. -/
theorem PollMgr.step_of_not_polls (pipefd : Nat) (hpolls : action.polls = false)
    (h : s.step action = some s') :
    s'.stage = s.stage ∧ (s.pendingChange = true → s'.pendingChange = true) ∧
      ((∀ fd ∈ s.aio.rfds ∪ s.aio.wfds, fd < fdBound pipefd) →
        ∀ fd ∈ s'.aio.rfds ∪ s'.aio.wfds, fd < fdBound pipefd) := by
  cases action with
  | addCallback fd flag ch =>
      simp only [PollMgr.step, PollMgr.addCallback] at h
      split at h
      · next hfd =>
          cases h
          exact ⟨rfl, id, fun hlt x hx => SelectAio.lt_of_mem_watchFd hlt
            (Nat.lt_of_lt_of_le hfd.1 (Nat.le_max_left _ _)) hx⟩
      · cases h
  | delCallback fd flag =>
      obtain ⟨⟨idle, aio⟩, hunwatch, rfl⟩ := Option.map_eq_some_iff.mp h
      obtain ⟨-, hr, hw, -⟩ := SelectAio.unwatchFd_eq hunwatch
      exact ⟨rfl, id, fun hlt x hx => hlt x (Finset.union_subset_union hr hw hx)⟩
  | blockRemoveFd t fd =>
      simp only [PollMgr.step, PollMgr.blockRemoveFd] at h
      obtain ⟨⟨idle, aio⟩, hunwatch, rfl⟩ := Option.map_eq_some_iff.mp h
      obtain ⟨-, hr, hw, -⟩ := SelectAio.unwatchFd_eq hunwatch
      exact ⟨rfl, fun _ => rfl, fun hlt x hx => hlt x (Finset.union_subset_union hr hw hx)⟩
  | removeReturns t fd =>
      obtain ⟨c, -, rfl⟩ := Option.map_eq_some_iff.mp h
      exact ⟨rfl, id, id⟩
  | wakes t fd =>
      obtain ⟨c, -, rfl⟩ := Option.map_eq_some_iff.mp h
      exact ⟨rfl, id, id⟩
  | _ => cases hpolls

theorem PollMgr.Bounded.step (hs : s.Inv pipefd) (hbounded : s.Bounded (fdBound pipefd))
    (h : s.step action = some s') : s'.Bounded (fdBound pipefd) := by
  rcases hpolls : action.polls with _ | _
  · obtain ⟨hstage, -, hlt⟩ := PollMgr.step_of_not_polls pipefd hpolls h
    exact ⟨hlt hbounded.current, fun sets hsets => hbounded.copied sets (hstage ▸ hsets)⟩
  · rcases htop : action.isTop with _ | _
    · obtain ⟨bytes, stage, rfl, ⟨-, rfl⟩ | ⟨hnot, -⟩⟩ := PollMgr.step_of_polls hs hpolls htop h
      · refine ⟨hbounded.current, fun sets hsets => ?_⟩
        cases hsets
        exact hbounded.current
      · exact ⟨hbounded.current, fun sets hsets => absurd hsets (hnot sets)⟩
    · cases PollMgr.polled_of_step hpolls h with
      | top hstage => exact ⟨hbounded.current, nofun⟩
      | _ => cases htop

/-- The steps the poll thread takes of its own accord: `select` returns without a signal, and
    without any descriptor being ready but the pipe. -/
def PollAction.alone (pipefd : Nat) : PollAction → Bool
  | .top | .copy | .check | .call | .returns => true
  | .select readyR readyW => decide (readyR ⊆ {pipefd} ∧ readyW = ∅)
  | _ => false

/-- The poll thread can take a step, whether or not a connection becomes ready. -/
def PollMgr.Polls (s : PollMgr) : Prop :=
  ∃ action, action.alone s.aio.pipefd = true ∧ (s.step action).isSome

/-- With a change pending the poll thread does not wait in `select`, as the pipe has a byte. -/
theorem PollMgr.Inv.polls (hs : s.Inv pipefd) (hpending : s.pendingChange = true) : s.Polls := by
  rcases hstage : s.stage with _ | _ | sets | ⟨readable, writable⟩ |
    ⟨write, fd, readable, writable⟩ | ⟨write, cb, fd, readable, writable⟩
  · exact ⟨.top, rfl, by simp [PollMgr.step, hstage]⟩
  · exact ⟨.copy, rfl, by simp [PollMgr.step, hstage]⟩
  · have hsets := hs.copied sets hstage
    have hpos := hs.signalled hpending (by rw [hstage]; trivial)
    have hpipe : pipefd ∈ ({pipefd} : Finset Nat) ↔ 0 < s.aio.bytes :=
      iff_of_true (Finset.mem_singleton_self _) hpos
    have hready : (∃ fd ∈ sets.rfds, fd ∈ ({pipefd} : Finset Nat)) ∨
        ∃ fd ∈ sets.wfds, fd ∈ (∅ : Finset Nat) :=
      .inl ⟨pipefd, hsets.watched, Finset.mem_singleton_self _⟩
    obtain ⟨scan, hscan, -⟩ := hsets.waitReady hpipe hready
    refine ⟨.select {pipefd} ∅, by simp [PollAction.alone, hs.pipe], ?_⟩
    simp only [PollMgr.step, hstage]
    rw [hs.pipe, if_pos hpipe, hscan]
    rfl
  · exact ⟨.check, rfl, by simp [PollMgr.step, hstage]⟩
  · have hregistered := hs.registered write fd readable writable hstage
    refine ⟨.call, rfl, ?_⟩
    simp only [PollMgr.step, hstage, Option.isSome_map]
    exact Option.isSome_iff_ne_none.mpr hregistered
  · exact ⟨.returns, rfl, by simp [PollMgr.step, hstage]⟩

end Progress

end DistributedLab.Rpc
