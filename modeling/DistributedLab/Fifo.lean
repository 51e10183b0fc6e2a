import DistributedLab.Condition
import DistributedLab.Transition

/-!
# The bounded queue

`fifo` hands elements from the threads in `enq` to the threads in `deq`.  Each call is a loop
that holds the mutex except while it waits, so a step is what a thread does from getting the
mutex to giving it up: a call that starts, or one that was woken and looks again.  Threads may
also wake without a signal.

A signal is given for every element that comes in and every place that becomes free, and it may
go to a thread that then finds the element or the place taken by another.  What makes up for it
is that the other has used no signal; `Serves` has the account.
-/

namespace DistributedLab.Rpc

open Transition Monitor

/-- `class fifo`.  Threads in `enq` wait with the element they bring.  `accepted` and `taken` are
    histories: what has come in and what has gone out. -/
structure Fifo (τ : Type u) (π : Type v) (α : Type w) where
  q : List α
  max : Nat
  nonEmpty : Cond τ
  hasSpace : Cond (π × α)
  accepted : List α
  taken : List α
deriving DecidableEq, Repr

variable {τ : Type u} {π : Type v} {α : Type w} [DecidableEq τ] [DecidableEq π] [DecidableEq α]

/-- `fifo::fifo`. -/
def Fifo.create (limit : Nat) : Fifo τ π α := ⟨[], limit, Cond.empty, Cond.empty, [], []⟩

/-- A round of `fifo::enq`: what it returns, if it does not wait.  `pick` is the thread that the
    signal goes to. -/
def Fifo.enq (s : Fifo τ π α) (t : π) (e : α) (blocking : Bool) (pick : τ) :
    Option (Option Bool × Fifo τ π α) :=
  if s.max = 0 ∨ s.q.length < s.max then
    (s.nonEmpty.signal pick).map fun c =>
      (some true, { s with q := s.q ++ [e], nonEmpty := c, accepted := s.accepted ++ [e] })
  else if blocking then
    some (none, { s with hasSpace := s.hasSpace.wait (t, e) })
  else some (some false, s)

/-- A round of `fifo::deq`: the element, unless it waits. -/
def Fifo.deq (s : Fifo τ π α) (t : τ) (pick : π × α) : Option (Option α × Fifo τ π α) :=
  match s.q with
  | [] => some (none, { s with nonEmpty := s.nonEmpty.wait t })
  | e :: rest =>
      (if s.max ≠ 0 ∧ rest.length < s.max then s.hasSpace.signal pick else some s.hasSpace).map
        fun c => (some e, { s with q := rest, hasSpace := c, taken := s.taken ++ [e] })

/-- `enq` after its wait. -/
def Fifo.enqResumes (s : Fifo τ π α) (t : π) (e : α) (pick : τ) :
    Option (Option Bool × Fifo τ π α) :=
  (s.hasSpace.resume (t, e)).bind fun c => { s with hasSpace := c }.enq t e true pick

/-- `deq` after its wait. -/
def Fifo.deqResumes (s : Fifo τ π α) (t : τ) (pick : π × α) :
    Option (Option α × Fifo τ π α) :=
  (s.nonEmpty.resume t).bind fun c => { s with nonEmpty := c }.deq t pick

/-! ### What a round does -/

section Rounds

variable {s s' : Fifo τ π α}

theorem Fifo.enq_cases {π : Type v} {α : Type w} {s s' : Fifo τ π α} {t : π} {e : α}
    {blocking : Bool} {pick : τ} {r : Option Bool}
    (h : s.enq t e blocking pick = some (r, s')) :
    (r = some true ∧ (s.max = 0 ∨ s.q.length < s.max) ∧
      ∃ c, s.nonEmpty.signal pick = some c ∧
        s' = { s with q := s.q ++ [e], nonEmpty := c, accepted := s.accepted ++ [e] }) ∨
    (r = none ∧ blocking = true ∧ (s.max ≠ 0 ∧ s.max ≤ s.q.length) ∧
      s' = { s with hasSpace := s.hasSpace.wait (t, e) }) ∨
    (r = some false ∧ blocking = false ∧ (s.max ≠ 0 ∧ s.max ≤ s.q.length) ∧ s' = s) := by
  unfold Fifo.enq at h
  split at h
  · next hspace =>
      obtain ⟨c, hc, heq⟩ := Option.map_eq_some_iff.mp h
      cases heq
      exact .inl ⟨rfl, hspace, c, hc, rfl⟩
  · next hfull =>
      have hmax : s.max ≠ 0 ∧ s.max ≤ s.q.length := by omega
      split at h
      · next hblocking =>
          cases h
          exact .inr (.inl ⟨rfl, hblocking, hmax, rfl⟩)
      · next hblocking =>
          cases h
          exact .inr (.inr ⟨rfl, Bool.eq_false_iff.mpr hblocking, hmax, rfl⟩)

/-- A blocking call does not fail. -/
theorem Fifo.enq_blocking {π : Type v} {α : Type w} {s s' : Fifo τ π α} {t : π} {e : α} {pick : τ}
    {r : Option Bool}
    (h : s.enq t e true pick = some (r, s')) : r ≠ some false := by
  rcases Fifo.enq_cases h with ⟨rfl, -⟩ | ⟨rfl, -⟩ | ⟨-, hblocking, -⟩
  · nofun
  · nofun
  · cases hblocking

theorem Fifo.deq_cases {τ : Type u} {s s' : Fifo τ π α} {t : τ} {pick : π × α} {r : Option α}
    (h : s.deq t pick = some (r, s')) :
    (r = none ∧ s.q = [] ∧ s' = { s with nonEmpty := s.nonEmpty.wait t }) ∨
    (∃ e rest c, r = some e ∧ s.q = e :: rest ∧
      (if s.max ≠ 0 ∧ rest.length < s.max then s.hasSpace.signal pick else some s.hasSpace) =
        some c ∧
      s' = { s with q := rest, hasSpace := c, taken := s.taken ++ [e] }) := by
  unfold Fifo.deq at h
  split at h
  · next hq =>
      cases h
      exact .inl ⟨rfl, hq, rfl⟩
  · next e rest hq =>
      obtain ⟨c, hc, heq⟩ := Option.map_eq_some_iff.mp h
      cases heq
      exact .inr ⟨e, rest, c, rfl, hq, hc, rfl⟩

/-- What `enq` puts into the queue. -/
def Fifo.pushed (r : Option Bool) (e : α) : List α := if r = some true then [e] else []

/-- All that a round of `enq` changes; `before` is 1 if the thread was in the wait. -/
structure Fifo.Enqueues (s s' : Fifo τ π α) (t : π) (e : α) (before : Nat) (r : Option Bool) :
    Prop where
  max : s'.max = s.max
  q : s'.q = s.q ++ Fifo.pushed r e
  accepted : s'.accepted = s.accepted ++ Fifo.pushed r e
  taken : s'.taken = s.taken
  nonEmpty : ∀ i, s'.nonEmpty.count i = s.nonEmpty.count i
  nonEmptyWoken :
    s'.nonEmpty.woken.length ≤ s.nonEmpty.woken.length + (Fifo.pushed r e).length
  hasSpace : ∀ p, s'.hasSpace.count p + (if (t, e) = p then before else 0) =
    s.hasSpace.count p + if (t, e) = p ∧ r = none then 1 else 0
  hasSpaceWoken : s'.hasSpace.woken.length + before = s.hasSpace.woken.length

/-- All that a round of `deq` changes. -/
structure Fifo.Dequeues (s s' : Fifo τ π α) (t : τ) (before : Nat) (r : Option α) : Prop where
  max : s'.max = s.max
  q : s.q = r.toList ++ s'.q
  accepted : s'.accepted = s.accepted
  taken : s'.taken = s.taken ++ r.toList
  nonEmpty : ∀ i, s'.nonEmpty.count i + (if t = i then before else 0) =
    s.nonEmpty.count i + if t = i ∧ r = none then 1 else 0
  nonEmptyWoken : s'.nonEmpty.woken.length + before = s.nonEmpty.woken.length
  hasSpace : ∀ p, s'.hasSpace.count p = s.hasSpace.count p
  hasSpaceWoken : s'.hasSpace.woken.length ≤ s.hasSpace.woken.length + r.toList.length

theorem Fifo.enqueues_enq {t : π} {e : α} {blocking : Bool} {pick : τ} {r : Option Bool}
    (h : s.enq t e blocking pick = some (r, s')) : s.Enqueues s' t e 0 r := by
  rcases Fifo.enq_cases h with ⟨rfl, -, c, hc, rfl⟩ | ⟨rfl, -, -, rfl⟩ | ⟨rfl, -, -, rfl⟩
  · exact ⟨rfl, rfl, rfl, rfl, fun i => Cond.count_signal i hc, Cond.woken_signal hc,
      by simp, rfl⟩
  · refine ⟨rfl, by simp [Fifo.pushed], by simp [Fifo.pushed], rfl, fun _ => rfl, by simp, ?_, rfl⟩
    intro p
    simp [Cond.count_wait]
  · exact ⟨rfl, by simp [Fifo.pushed], by simp [Fifo.pushed], rfl, fun _ => rfl, by simp,
      by simp, rfl⟩

theorem Fifo.dequeues_deq {t : τ} {pick : π × α} {r : Option α}
    (h : s.deq t pick = some (r, s')) : s.Dequeues s' t 0 r := by
  rcases Fifo.deq_cases h with ⟨rfl, hq, rfl⟩ | ⟨e, rest, c, rfl, hq, hc, rfl⟩
  · refine ⟨rfl, by simp, rfl, by simp, ?_, rfl, fun _ => rfl, by simp⟩
    intro i
    simp [Cond.count_wait]
  · refine ⟨rfl, by simp [hq], rfl, by simp, by simp, rfl, ?_, ?_⟩
    · intro p
      split at hc
      · exact Cond.count_signal p hc
      · obtain rfl := Option.some.inj hc
        rfl
    · show c.woken.length ≤ s.hasSpace.woken.length + 1
      split at hc
      · exact Cond.woken_signal hc
      · obtain rfl := Option.some.inj hc
        exact Nat.le_succ _

theorem Fifo.enqueues_enqResumes {t : π} {e : α} {pick : τ} {r : Option Bool}
    (h : s.enqResumes t e pick = some (r, s')) :
    s.Enqueues s' t e 1 r ∧ (t, e) ∈ s.hasSpace.woken := by
  obtain ⟨c, hc, henq⟩ := Option.bind_eq_some_iff.mp h
  have hround := Fifo.enqueues_enq henq
  refine ⟨⟨hround.max, hround.q, hround.accepted, hround.taken, hround.nonEmpty,
    hround.nonEmptyWoken, ?_, ?_⟩, (Cond.resume_eq hc).1⟩
  · intro p
    have hcount := hround.hasSpace p
    have hresumed := Cond.count_resume p hc
    simp only [ite_self, Nat.add_zero] at hcount
    omega
  · rw [← Cond.woken_resume hc]
    exact congrArg Nat.succ hround.hasSpaceWoken

theorem Fifo.dequeues_deqResumes {t : τ} {pick : π × α} {r : Option α}
    (h : s.deqResumes t pick = some (r, s')) : s.Dequeues s' t 1 r := by
  obtain ⟨c, hc, hdeq⟩ := Option.bind_eq_some_iff.mp h
  have hround := Fifo.dequeues_deq hdeq
  refine ⟨hround.max, hround.q, hround.accepted, hround.taken, ?_, ?_, hround.hasSpace,
    hround.hasSpaceWoken⟩
  · intro i
    have hcount := hround.nonEmpty i
    have hresumed := Cond.count_resume i hc
    simp only [ite_self, Nat.add_zero] at hcount
    omega
  · rw [← Cond.woken_resume hc]
    exact congrArg Nat.succ hround.nonEmptyWoken

/-! ### A thread that has the mutex can finish its round -/

theorem Fifo.exists_enq {π : Type v} {α : Type w} [Inhabited τ] (s : Fifo τ π α) (t : π) (e : α)
    (blocking : Bool) :
    ∃ pick, (s.enq t e blocking pick).isSome := by
  obtain ⟨pick, c, hc⟩ := s.nonEmpty.exists_signal
  refine ⟨pick, ?_⟩
  unfold Fifo.enq
  split
  · simp [hc]
  · split <;> rfl

theorem Fifo.exists_deq {τ : Type u} [Inhabited π] [Inhabited α] (s : Fifo τ π α) (t : τ) :
    ∃ pick, (s.deq t pick).isSome := by
  obtain ⟨pick, c, hc⟩ := s.hasSpace.exists_signal
  refine ⟨pick, ?_⟩
  unfold Fifo.deq
  split
  · rfl
  · rw [Option.isSome_map]
    split
    · simp [hc]
    · rfl

theorem Fifo.exists_enqResumes [Inhabited τ] {t : π} {e : α} (h : (t, e) ∈ s.hasSpace.woken) :
    ∃ pick, (s.enqResumes t e pick).isSome := by
  obtain ⟨c, hc⟩ := Cond.exists_resume h
  obtain ⟨pick, hpick⟩ := { s with hasSpace := c }.exists_enq t e true
  exact ⟨pick, by rw [Fifo.enqResumes, hc]; exact hpick⟩

theorem Fifo.exists_deqResumes [Inhabited π] [Inhabited α] {t : τ}
    (h : t ∈ s.nonEmpty.woken) : ∃ pick, (s.deqResumes t pick).isSome := by
  obtain ⟨c, hc⟩ := Cond.exists_resume h
  obtain ⟨pick, hpick⟩ := { s with nonEmpty := c }.exists_deq t
  exact ⟨pick, by rw [Fifo.deqResumes, hc]; exact hpick⟩

/-! ### No wakeup is missed -/

/-- The queue has what came in and did not go out.  While a thread sleeps in `deq` there is an
    awake one for every element but `dequeuers`, and while a thread sleeps in `enq` there is one
    for every free place but `enqueuers`.  Both are 0 between the rounds; a thread that has just
    come back from its wait is not counted any more. -/
structure Fifo.Serves (s : Fifo τ π α) (dequeuers enqueuers : Nat) : Prop where
  order : s.accepted = s.taken ++ s.q
  bound : s.max ≠ 0 → s.q.length ≤ s.max
  nonEmpty : s.nonEmpty.Covers (s.q.length - dequeuers)
  hasSpace : s.hasSpace.Covers (s.max - s.q.length - enqueuers)
  unbounded : s.max = 0 → s.hasSpace.waiting = []

theorem Fifo.serves_create {τ : Type u} {π : Type v} {α : Type w} (limit : Nat) :
    (Fifo.create limit : Fifo τ π α).Serves 0 0 where
  order := rfl
  bound := fun _ => Nat.zero_le limit
  nonEmpty := Cond.covers_zero _
  hasSpace := fun hne => absurd rfl hne
  unbounded := fun _ => rfl

theorem Fifo.Serves.enq {π : Type v} {α : Type w} {s s' : Fifo τ π α} {t : π} {e : α}
    {blocking : Bool} {pick : τ} {r : Option Bool}
    (hs : s.Serves 0 1) (h : s.enq t e blocking pick = some (r, s'))
    (hcall : blocking = false → s.Serves 0 0) : s'.Serves 0 0 := by
  rcases Fifo.enq_cases h with ⟨-, hspace, c, hc, rfl⟩ | ⟨-, -, hfull, rfl⟩ | ⟨-, hblock, -, rfl⟩
  · have hlength : (s.q ++ [e]).length = s.q.length + 1 := by simp
    constructor
    · simp [hs.order]
    · intro hmax
      show (s.q ++ [e]).length ≤ s.max
      have := hspace.resolve_left hmax
      omega
    · show c.Covers ((s.q ++ [e]).length - 0)
      rw [hlength]
      exact hs.nonEmpty.signal hc
    · show s.hasSpace.Covers (s.max - (s.q ++ [e]).length - 0)
      exact hs.hasSpace.mono (by omega)
    · exact hs.unbounded
  · constructor
    · exact hs.order
    · exact hs.bound
    · exact hs.nonEmpty
    · show (s.hasSpace.wait (t, e)).Covers (s.max - s.q.length - 0)
      rw [Nat.sub_eq_zero_of_le hfull.2]
      exact Cond.covers_zero _
    · exact fun hmax => absurd hmax hfull.1
  · exact hcall hblock

theorem Fifo.Serves.deq {τ : Type u} {s s' : Fifo τ π α} {t : τ} {pick : π × α} {r : Option α}
    (hs : s.Serves 1 0) (h : s.deq t pick = some (r, s')) : s'.Serves 0 0 := by
  rcases Fifo.deq_cases h with ⟨-, hq, rfl⟩ | ⟨e, rest, c, -, hq, hc, rfl⟩
  · constructor
    · exact hs.order
    · exact hs.bound
    · show (s.nonEmpty.wait t).Covers (s.q.length - 0)
      rw [hq]
      exact Cond.covers_zero _
    · exact hs.hasSpace
    · exact hs.unbounded
  · have hlength : s.q.length = rest.length + 1 := by simp [hq]
    constructor
    · simp [hs.order, hq]
    · intro hmax
      show rest.length ≤ s.max
      have := hs.bound hmax
      omega
    · show s.nonEmpty.Covers (rest.length - 0)
      exact hs.nonEmpty.mono (by omega)
    · show c.Covers (s.max - rest.length - 0)
      split at hc
      · exact (hs.hasSpace.signal hc).mono (by omega)
      · next hnot =>
          -- the queue was not over its bound, so there is no bound
          obtain rfl := Option.some.inj hc
          by_cases hmax : s.max = 0
          · exact fun hne => absurd (hs.unbounded hmax) hne
          · exact absurd ⟨hmax, by have := hs.bound hmax; omega⟩ hnot
    · intro hmax
      show c.waiting = []
      rw [if_neg (fun hif => hif.1 hmax)] at hc
      obtain rfl := Option.some.inj hc
      exact hs.unbounded hmax

theorem Fifo.Serves.enqResumes {t : π} {e : α} {pick : τ} {r : Option Bool}
    (hs : s.Serves 0 0) (h : s.enqResumes t e pick = some (r, s')) : s'.Serves 0 0 := by
  obtain ⟨c, hc, henq⟩ := Option.bind_eq_some_iff.mp h
  have hresumed : { s with hasSpace := c }.Serves 0 1 := by
    constructor
    · exact hs.order
    · exact hs.bound
    · exact hs.nonEmpty
    · exact hs.hasSpace.resume hc
    · intro hmax
      obtain ⟨-, rfl⟩ := Cond.resume_eq hc
      exact hs.unbounded hmax
  exact hresumed.enq henq nofun

theorem Fifo.Serves.deqResumes {t : τ} {pick : π × α} {r : Option α}
    (hs : s.Serves 0 0) (h : s.deqResumes t pick = some (r, s')) : s'.Serves 0 0 := by
  obtain ⟨c, hc, hdeq⟩ := Option.bind_eq_some_iff.mp h
  have hresumed : { s with nonEmpty := c }.Serves 1 0 :=
    ⟨hs.order, hs.bound, hs.nonEmpty.resume hc, hs.hasSpace, hs.unbounded⟩
  exact hresumed.deq hdeq

theorem Fifo.Serves.weaken {τ : Type u} {π : Type v} {α : Type w} {s : Fifo τ π α}
    (hs : s.Serves 0 0) (m n : Nat) : s.Serves m n :=
  ⟨hs.order, hs.bound, hs.nonEmpty.mono (Nat.sub_le _ _), hs.hasSpace.mono (Nat.sub_le _ _),
    hs.unbounded⟩

theorem Fifo.Serves.wakeDeq {π : Type v} {α : Type w} {s : Fifo τ π α} {t : τ} {c : Cond τ}
    (hs : s.Serves 0 0) (h : s.nonEmpty.wake t = some c) : { s with nonEmpty := c }.Serves 0 0 :=
  ⟨hs.order, hs.bound, (hs.nonEmpty.wake h).mono (Nat.le_succ _), hs.hasSpace, hs.unbounded⟩

theorem Fifo.Serves.wakeEnq {τ : Type u} {s : Fifo τ π α} {p : π × α} {c : Cond (π × α)}
    (hs : s.Serves 0 0) (h : s.hasSpace.wake p = some c) : { s with hasSpace := c }.Serves 0 0 := by
  refine ⟨hs.order, hs.bound, hs.nonEmpty, (hs.hasSpace.wake h).mono (Nat.le_succ _), ?_⟩
  intro hmax
  obtain ⟨hmem, -⟩ := Cond.wake_eq h
  rw [hs.unbounded hmax] at hmem
  cases hmem

end Rounds

/-! ### Whole runs -/

/-- The rounds of the threads, and wakeups without a signal. -/
inductive FifoAction (τ : Type u) (π : Type v) (α : Type w) where
  | enq (t : π) (e : α) (blocking : Bool) (pick : τ)
  | enqResumes (t : π) (e : α) (pick : τ)
  | deq (t : τ) (pick : π × α)
  | deqResumes (t : τ) (pick : π × α)
  | enqWakes (t : π) (e : α)
  | deqWakes (t : τ)

def Fifo.step (s : Fifo τ π α) : FifoAction τ π α → Option (Fifo τ π α)
  | .enq t e blocking pick => (s.enq t e blocking pick).map Prod.snd
  | .enqResumes t e pick => (s.enqResumes t e pick).map Prod.snd
  | .deq t pick => (s.deq t pick).map Prod.snd
  | .deqResumes t pick => (s.deqResumes t pick).map Prod.snd
  | .enqWakes t e => (s.hasSpace.wake (t, e)).map fun c => { s with hasSpace := c }
  | .deqWakes t => (s.nonEmpty.wake t).map fun c => { s with nonEmpty := c }

def fifo (τ : Type u) (π : Type v) (α : Type w) [DecidableEq τ] [DecidableEq π] [DecidableEq α]
    (limit : Nat) : System (Fifo τ π α) (FifoAction τ π α) where
  init s := s = Fifo.create limit
  step := Fifo.step

theorem Fifo.max_step {s s' : Fifo τ π α} {action : FifoAction τ π α}
    (h : s.step action = some s') : s'.max = s.max := by
  cases action with
  | enq t e blocking pick =>
      obtain ⟨⟨r, _⟩, henq, rfl⟩ := Option.map_eq_some_iff.mp h
      exact (Fifo.enqueues_enq henq).max
  | enqResumes t e pick =>
      obtain ⟨⟨r, _⟩, henq, rfl⟩ := Option.map_eq_some_iff.mp h
      exact (Fifo.enqueues_enqResumes henq).1.max
  | deq t pick =>
      obtain ⟨⟨r, _⟩, hdeq, rfl⟩ := Option.map_eq_some_iff.mp h
      exact (Fifo.dequeues_deq hdeq).max
  | deqResumes t pick =>
      obtain ⟨⟨r, _⟩, hdeq, rfl⟩ := Option.map_eq_some_iff.mp h
      exact (Fifo.dequeues_deqResumes hdeq).max
  | enqWakes t e =>
      obtain ⟨c, -, rfl⟩ := Option.map_eq_some_iff.mp h
      rfl
  | deqWakes t =>
      obtain ⟨c, -, rfl⟩ := Option.map_eq_some_iff.mp h
      rfl

theorem Fifo.Serves.step {s s' : Fifo τ π α} {action : FifoAction τ π α} (hs : s.Serves 0 0)
    (h : s.step action = some s') : s'.Serves 0 0 := by
  cases action with
  | enq t e blocking pick =>
      obtain ⟨⟨r, _⟩, henq, rfl⟩ := Option.map_eq_some_iff.mp h
      exact (hs.weaken 0 1).enq henq fun _ => hs
  | enqResumes t e pick =>
      obtain ⟨⟨r, _⟩, henq, rfl⟩ := Option.map_eq_some_iff.mp h
      exact hs.enqResumes henq
  | deq t pick =>
      obtain ⟨⟨r, _⟩, hdeq, rfl⟩ := Option.map_eq_some_iff.mp h
      exact (hs.weaken 1 0).deq hdeq
  | deqResumes t pick =>
      obtain ⟨⟨r, _⟩, hdeq, rfl⟩ := Option.map_eq_some_iff.mp h
      exact hs.deqResumes hdeq
  | enqWakes t e =>
      obtain ⟨c, hc, rfl⟩ := Option.map_eq_some_iff.mp h
      exact hs.wakeEnq hc
  | deqWakes t =>
      obtain ⟨c, hc, rfl⟩ := Option.map_eq_some_iff.mp h
      exact hs.wakeDeq hc

theorem fifo_invariant {limit : Nat} {s : Fifo τ π α}
    (h : (fifo τ π α limit).Reach anyStep s) : s.Serves 0 0 ∧ s.max = limit := by
  refine h.invariant (P := fun s => s.Serves 0 0 ∧ s.max = limit) ?_ ?_
  · rintro _ rfl
    exact ⟨Fifo.serves_create limit, rfl⟩
  · rintro s s' action ⟨hs, rfl⟩ - hstep
    exact ⟨hs.step hstep, Fifo.max_step hstep⟩

/-- **The queue delivers in order and misses no wakeup.**  What has been taken, followed by what
    is in the queue, is what has been accepted, and the queue keeps its bound.  While a thread
    sleeps in `deq`, as many are awake there as there are elements; while one sleeps in `enq`, as
    many are awake there as there are free places; and the two sides never sleep at the same
    time with nobody awake. -/
theorem fifo_serves {limit : Nat} {s : Fifo τ π α} (h : (fifo τ π α limit).Reach anyStep s) :
    s.accepted = s.taken ++ s.q ∧ (limit ≠ 0 → s.q.length ≤ limit) ∧
    (s.nonEmpty.waiting ≠ [] → s.q.length ≤ s.nonEmpty.woken.length) ∧
    (s.hasSpace.waiting ≠ [] →
      limit ≠ 0 ∧ limit ≤ s.q.length + s.hasSpace.woken.length) ∧
    (s.nonEmpty.waiting ≠ [] → s.hasSpace.waiting ≠ [] →
      s.nonEmpty.woken ≠ [] ∨ s.hasSpace.woken ≠ []) := by
  obtain ⟨hs, rfl⟩ := fifo_invariant h
  have hdeq : s.nonEmpty.waiting ≠ [] → s.q.length ≤ s.nonEmpty.woken.length := hs.nonEmpty
  have henq : s.hasSpace.waiting ≠ [] →
      s.max ≠ 0 ∧ s.max ≤ s.q.length + s.hasSpace.woken.length := by
    intro hne
    have hcovered := hs.hasSpace hne
    exact ⟨fun hmax => hne (hs.unbounded hmax), by omega⟩
  refine ⟨hs.order, hs.bound, hdeq, henq, ?_⟩
  intro hconsumer hproducer
  by_contra hasleep
  obtain ⟨hnone, hnone'⟩ := not_or.mp hasleep
  have hempty := hdeq hconsumer
  obtain ⟨hmax, hfull⟩ := henq hproducer
  rw [not_not.mp hnone] at hempty
  rw [not_not.mp hnone'] at hfull
  simp only [List.length_nil] at hempty hfull
  omega

/-- A place becomes free and the signal wakes one of two sleepers, but a third thread is faster:
    nobody has missed a place. -/
theorem fifo_serves_overtaken :
    ∃ s, (fifo Nat Nat Nat 1).Reach anyStep s ∧
      s.accepted = [5, 8] ∧ s.taken = [5] ∧ s.q = [8] ∧ s.hasSpace = ⟨[(2, 7)], [(1, 6)]⟩ ∧
      1 ≤ s.q.length + s.hasSpace.woken.length := by
  obtain ⟨s, hs, hview⟩ : ∃ s, (fifo Nat Nat Nat 1).Reach anyStep s ∧
      (s.accepted, s.taken, s.q, s.hasSpace) = ([5, 8], [5], [8], ⟨[(2, 7)], [(1, 6)]⟩) :=
    System.Reach.of_exec (fun _ _ => true)
      [.enq 0 5 true 0, .enq 1 6 true 0, .enq 2 7 true 0, .deq 0 (1, 6), .enq 3 8 false 0]
      rfl (fun _ _ _ => trivial) (by decide)
  simp only [Prod.mk.injEq] at hview
  obtain ⟨haccepted, htaken, hq, hspace⟩ := hview
  have hasleep : s.hasSpace.waiting ≠ [] := by simp [hspace]
  exact ⟨s, hs, haccepted, htaken, hq, hspace, ((fifo_serves hs).2.2.2.1 hasleep).2⟩

end DistributedLab.Rpc
