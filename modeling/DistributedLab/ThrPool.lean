import DistributedLab.Fifo
import Mathlib.Algebra.GroupWithZero.Nat
import Mathlib.Data.List.Perm.Basic

/-!
# The thread pool

`ThrPool` has `nthreads_` workers that take jobs from one queue.  The destructor queues a job
without a function for each of them, the poison pill that a worker ends with, and joins them all.
It may be called only when no other thread uses the pool or is blocked in it.

Every job that was accepted is run exactly once, those still queued when the destructor is called
included: the pills come after them.  The teardown cannot block for ever, although the destructor
itself waits for space in the queue.
-/

namespace DistributedLab.Rpc

open Transition Monitor

/-- The threads in `enq`. -/
inductive Adder where
  | external (a : Nat)
  | destructor
deriving DecidableEq, Repr, Inhabited

/-- Where a worker is in `do_worker`. -/
inductive Worker (J : Type u) where
  | ready
  /-- In the wait of `takeJob`. -/
  | taking
  | running (j : J)
  | exited
deriving DecidableEq, Repr

/-- How far `~ThrPool` has come: pills queued, or threads joined. -/
inductive Teardown where
  | notCalled
  | pushing (k : Nat)
  /-- In the wait of `enq`. -/
  | pushBlocked (k : Nat)
  | joining (k : Nat)
deriving DecidableEq, Repr

/-- `class ThrPool`.  A job without a function is `none`; `finished` is a history. -/
structure ThrPool (J : Type u) where
  nthreads : Nat
  blockadd : Bool
  jobq : Fifo Nat Adder (Option J)
  th : List (Worker J)
  teardown : Teardown
  finished : List J
deriving DecidableEq, Repr

variable {J : Type u} [DecidableEq J]

def ThrPool.create (sz : Nat) (blocking : Bool) : ThrPool J :=
  { nthreads := sz, blockadd := blocking, jobq := Fifo.create (100 * sz),
    th := List.replicate sz .ready, teardown := .notCalled, finished := [] }

/-- What a worker does with the outcome of `deq` in `takeJob`. -/
def Worker.took : Option (Option J) → Worker J
  | none => .taking
  | some none => .exited
  | some (some j) => .running j

/-- The destructor's next pill, or its first thread to join. -/
def Teardown.pushed (nthreads k : Nat) : Teardown := if k < nthreads then .pushing k else .joining 0

/-- The destructor after a round of `enq` for pill `k`; this `enq` blocks, so it never fails. -/
def Teardown.after (nthreads k : Nat) : Option Bool → Teardown
  | none => .pushBlocked k
  | some _ => .pushed nthreads (k + 1)

inductive ThrPoolAction (J : Type u) where
  | addJob (a : Nat) (j : J) (pick : Nat)
  | addResumes (a : Nat) (j : J) (pick : Nat)
  | takeJob (i : Nat) (pick : Adder × Option J)
  | takeResumes (i : Nat) (pick : Adder × Option J)
  | finish (i : Nat)
  | destroy
  | push (pick : Nat)
  | pushResumes (pick : Nat)
  | join
  /-- Wakeups without a signal. -/
  | workerWakes (i : Nat)
  | adderWakes (p : Adder × Option J)

def ThrPool.step (s : ThrPool J) : ThrPoolAction J → Option (ThrPool J)
  | .addJob a j pick =>
      (s.jobq.enq (.external a) (some j) s.blockadd pick).map fun r => { s with jobq := r.2 }
  | .addResumes a j pick =>
      (s.jobq.enqResumes (.external a) (some j) pick).map fun r => { s with jobq := r.2 }
  | .takeJob i pick =>
      if s.th[i]? = some .ready then
        (s.jobq.deq i pick).map fun r => { s with jobq := r.2, th := s.th.set i (.took r.1) }
      else none
  | .takeResumes i pick =>
      if s.th[i]? = some .taking then
        (s.jobq.deqResumes i pick).map fun r =>
          { s with jobq := r.2, th := s.th.set i (.took r.1) }
      else none
  | .finish i =>
      match s.th[i]? with
      | some (.running j) =>
          some { s with th := s.th.set i .ready, finished := s.finished ++ [j] }
      | _ => none
  | .destroy =>
      if s.teardown = .notCalled then some { s with teardown := .pushed s.nthreads 0 } else none
  | .push pick =>
      match s.teardown with
      | .pushing k =>
          (s.jobq.enq .destructor none true pick).map fun r =>
            { s with jobq := r.2, teardown := .after s.nthreads k r.1 }
      | _ => none
  | .pushResumes pick =>
      match s.teardown with
      | .pushBlocked k =>
          (s.jobq.enqResumes .destructor none pick).map fun r =>
            { s with jobq := r.2, teardown := .after s.nthreads k r.1 }
      | _ => none
  | .join =>
      match s.teardown with
      | .joining k =>
          if s.th[k]? = some .exited then some { s with teardown := .joining (k + 1) } else none
      | _ => none
  | .workerWakes i =>
      (s.jobq.nonEmpty.wake i).map fun c => { s with jobq := { s.jobq with nonEmpty := c } }
  | .adderWakes p =>
      (s.jobq.hasSpace.wake p).map fun c => { s with jobq := { s.jobq with hasSpace := c } }

def thrPool (J : Type u) [DecidableEq J] (sz : Nat) (blocking : Bool) :
    System (ThrPool J) (ThrPoolAction J) where
  init s := s = .create sz blocking
  step := ThrPool.step

/-- The destructor is called when no other thread is blocked in the pool, and none uses it
    afterwards. -/
def ThrPool.Proper (s : ThrPool J) : ThrPoolAction J → Prop
  | .addJob _ _ _ => s.teardown = .notCalled
  | .destroy => s.jobq.hasSpace = Cond.empty
  | _ => True

instance (s : ThrPool J) : DecidablePred s.Proper
  | .addJob _ _ _ => inferInstanceAs (Decidable (s.teardown = .notCalled))
  | .destroy => inferInstanceAs (Decidable (s.jobq.hasSpace = Cond.empty))
  | .addResumes _ _ _ | .takeJob _ _ | .takeResumes _ _ | .finish _ | .push _ | .pushResumes _
  | .join | .workerWakes _ | .adderWakes _ => inferInstanceAs (Decidable True)

/-- `~ThrPool` has returned. -/
def ThrPool.Destroyed (s : ThrPool J) : Prop := s.teardown = .joining s.nthreads

/-! ### The workers as a whole -/

def Worker.job : Worker J → List J
  | .running j => [j]
  | _ => []

/-- The jobs that are being run. -/
def running (th : List (Worker J)) : List J := th.flatMap Worker.job

/-- The jobs among the elements of the queue. -/
def jobs (elements : List (Option J)) : List J := elements.flatMap Option.toList

/-- The pills that have been queued. -/
def Teardown.pills (nthreads : Nat) : Teardown → Nat
  | .notCalled => 0
  | .pushing k | .pushBlocked k => k
  | .joining _ => nthreads

section Workers

variable {th : List (Worker J)} {i : Nat} {w : Worker J}

theorem perm_of_getElem? {J : Type u} {th : List (Worker J)} {w : Worker J} (h : th[i]? = some w)
    (w' : Worker J) :
    ∃ others, th.Perm (w :: others) ∧ (th.set i w').Perm (w' :: others) := by
  obtain ⟨hlt, rfl⟩ := List.getElem?_eq_some_iff.mp h
  exact ⟨th.eraseIdx i, (List.getElem_cons_eraseIdx_perm hlt).symm,
    List.set_perm_cons_eraseIdx hlt w'⟩

theorem running_set {J : Type u} {th : List (Worker J)} {w : Worker J} (h : th[i]? = some w)
    (w' : Worker J) :
    (running (th.set i w') ++ w.job).Perm (running th ++ w'.job) := by
  obtain ⟨others, hth, hset⟩ := perm_of_getElem? h w'
  have hbefore : (running th).Perm (w.job ++ running others) := hth.flatMap_right _
  have hafter : (running (th.set i w')).Perm (w'.job ++ running others) := hset.flatMap_right _
  calc (running (th.set i w') ++ w.job).Perm (w'.job ++ running others ++ w.job) :=
        hafter.append_right _
    _ |>.Perm (w.job ++ running others ++ w'.job) := by
        rw [List.append_assoc]
        exact List.perm_append_comm.trans (List.perm_append_comm.append_right _)
    _ |>.Perm (running th ++ w'.job) := (hbefore.append_right _).symm

theorem count_set (h : th[i]? = some w) (w' x : Worker J) :
    (th.set i w').count x + [w].count x = th.count x + [w'].count x := by
  obtain ⟨others, hth, hset⟩ := perm_of_getElem? h w'
  rw [hth.count_eq, hset.count_eq]
  simp only [List.count_cons, List.count_nil]
  omega

theorem getElem?_set_of_getElem? {J : Type u} {th : List (Worker J)} {w : Worker J}
    (h : th[i]? = some w) (w' : Worker J) (k : Nat) :
    (th.set i w')[k]? = if i = k then some w' else th[k]? := by
  rw [List.getElem?_set, if_pos (List.getElem?_eq_some_iff.mp h).1]

end Workers

theorem jobs_append {J : Type u} (l l' : List (Option J)) : jobs (l ++ l') = jobs l ++ jobs l' :=
  List.flatMap_append

theorem job_took {J : Type u} (r : Option (Option J)) : (Worker.took r).job = jobs r.toList := by
  rcases r with _ | _ | j <;> rfl

theorem count_exited_took (r : Option (Option J)) :
    [Worker.took r].count .exited = r.toList.count none := by
  rcases r with _ | _ | j <;> simp [Worker.took]

theorem took_eq_taking_iff {J : Type u} {r : Option (Option J)} :
    Worker.took r = .taking ↔ r = none := by
  rcases r with _ | _ | j <;> simp [Worker.took]

/-! ### The invariant -/

def Teardown.blocked : Teardown → Bool
  | .pushBlocked _ => true
  | _ => false

/-- The destructor's counters stay in their bounds, and a thread that it has joined has exited. -/
def Teardown.Fits (nthreads : Nat) (th : List (Worker J)) : Teardown → Prop
  | .notCalled => True
  | .pushing k | .pushBlocked k => k < nthreads
  | .joining k => k ≤ nthreads ∧ ∀ i < k, th[i]? = some .exited

theorem Teardown.Fits.set {J : Type u} {nthreads i : Nat} {th : List (Worker J)} {t : Teardown}
    {w : Worker J}
    (h : t.Fits nthreads th) (hw : th[i]? = some w) (hlive : w ≠ .exited) (w' : Worker J) :
    t.Fits nthreads (th.set i w') := by
  cases t with
  | notCalled => exact h
  | pushing k => exact h
  | pushBlocked k => exact h
  | joining k =>
      refine ⟨h.1, ?_⟩
      intro l hl
      have hexited := h.2 l hl
      have hne : i ≠ l := by
        rintro rfl
        exact hlive (Option.some.inj (hw.symm.trans hexited))
      rw [List.getElem?_set_ne hne]
      exact hexited

structure ThrPool.Inv (sz : Nat) (s : ThrPool J) : Prop where
  size : s.nthreads = sz
  serves : s.jobq.Serves 0 0
  max : s.jobq.max = 100 * s.nthreads
  length : s.th.length = s.nthreads
  /-- The threads in the two waits. -/
  takers : ∀ i, s.jobq.nonEmpty.count i = if s.th[i]? = some .taking then 1 else 0
  pusher : ∀ e, s.jobq.hasSpace.count (.destructor, e) =
    if e = none ∧ s.teardown.blocked = true then 1 else 0
  externals : s.teardown ≠ .notCalled → ∀ a e, s.jobq.hasSpace.count (.external a, e) = 0
  /-- No job comes after a pill. -/
  accepted : ∃ js : List J, s.jobq.accepted =
    js.map some ++ List.replicate (s.teardown.pills s.nthreads) none
  started : (jobs s.jobq.taken).Perm (s.finished ++ running s.th)
  exits : s.jobq.taken.count none = s.th.count .exited
  fits : s.teardown.Fits s.nthreads s.th

theorem ThrPool.inv_create (sz : Nat) (blocking : Bool) :
    (ThrPool.create sz blocking : ThrPool J).Inv sz where
  size := rfl
  serves := Fifo.serves_create _
  max := rfl
  length := List.length_replicate
  takers := by
    intro i
    rw [if_neg]
    · rfl
    · simp only [ThrPool.create, List.getElem?_replicate]
      split <;> simp
  pusher := fun e => by
    rw [if_neg (by simp [ThrPool.create, Teardown.blocked])]
    rfl
  externals := fun hne => absurd rfl hne
  accepted := ⟨[], rfl⟩
  started := by
    have hidle : running (List.replicate sz (.ready : Worker J)) = [] := by
      simp [running, Worker.job]
    show (jobs []).Perm ([] ++ running (List.replicate sz .ready))
    rw [hidle]
    exact .refl _
  exits := by
    show 0 = (List.replicate sz (.ready : Worker J)).count .exited
    simp [List.count_replicate]
  fits := trivial

section Preserved

variable {sz : Nat} {s : ThrPool J} {q : Fifo Nat Adder (Option J)}

theorem ThrPool.Inv.external {a : Nat} {j : J} {before : Nat} {r : Option Bool} (hs : s.Inv sz)
    (hcalled : s.teardown = .notCalled)
    (hround : s.jobq.Enqueues q (.external a) (some j) before r) (hserves : q.Serves 0 0) :
    { s with jobq := q }.Inv sz where
  size := hs.size
  serves := hserves
  max := hround.max.trans hs.max
  length := hs.length
  takers := fun i => (hround.nonEmpty i).trans (hs.takers i)
  pusher := fun e => by
    have hcount := hround.hasSpace (.destructor, e)
    simp only [Prod.mk.injEq, reduceCtorEq, false_and, if_false, Nat.add_zero] at hcount
    exact hcount.trans (hs.pusher e)
  externals := fun hne => absurd hcalled hne
  accepted := by
    obtain ⟨js, hjs⟩ := hs.accepted
    rw [hcalled] at hjs
    simp only [Teardown.pills, List.replicate_zero, List.append_nil] at hjs
    refine ⟨js ++ jobs (Fifo.pushed r (some j)), ?_⟩
    show q.accepted = _ ++ List.replicate (s.teardown.pills s.nthreads) none
    rw [hround.accepted, hjs, hcalled]
    unfold Fifo.pushed
    split <;> simp [jobs, Teardown.pills]
  started := hround.taken ▸ hs.started
  exits := hround.taken ▸ hs.exits
  fits := hs.fits

theorem ThrPool.Inv.takes {i before : Nat} {w : Worker J} {r : Option (Option J)} (hs : s.Inv sz)
    (hw : s.th[i]? = some w)
    (hbefore : w = .ready ∧ before = 0 ∨ w = .taking ∧ before = 1)
    (hround : s.jobq.Dequeues q i before r) (hserves : q.Serves 0 0) :
    { s with jobq := q, th := s.th.set i (.took r) }.Inv sz where
  size := hs.size
  serves := hserves
  max := hround.max.trans hs.max
  length := List.length_set.trans hs.length
  takers := by
    intro k
    have hcount := hround.nonEmpty k
    have htakers := hs.takers k
    show q.nonEmpty.count k = if (s.th.set i (.took r))[k]? = some .taking then 1 else 0
    rw [getElem?_set_of_getElem? hw]
    by_cases hk : i = k
    · subst hk
      rw [hw] at htakers
      simp only [if_true, Option.some.injEq, took_eq_taking_iff, true_and] at hcount ⊢
      rcases hbefore with ⟨rfl, rfl⟩ | ⟨rfl, rfl⟩ <;> simp at htakers <;> omega
    · simp only [hk, false_and, if_false, Nat.add_zero] at hcount ⊢
      exact hcount.trans htakers
  pusher := fun e => (hround.hasSpace _).trans (hs.pusher e)
  externals := fun hne a e => (hround.hasSpace _).trans (hs.externals hne a e)
  accepted := hround.accepted ▸ hs.accepted
  started := by
    have hidle : w.job = [] := by rcases hbefore with ⟨rfl, -⟩ | ⟨rfl, -⟩ <;> rfl
    have hset := running_set hw (.took r)
    rw [hidle, List.append_nil, job_took] at hset
    show (jobs q.taken).Perm (s.finished ++ running (s.th.set i (.took r)))
    rw [hround.taken, jobs_append]
    calc (jobs s.jobq.taken ++ jobs r.toList).Perm
          (s.finished ++ running s.th ++ jobs r.toList) := hs.started.append_right _
      _ |>.Perm (s.finished ++ running (s.th.set i (.took r))) := by
          rw [List.append_assoc]
          exact hset.symm.append_left _
  exits := by
    have hlive : [w].count .exited = 0 := by
      rcases hbefore with ⟨rfl, -⟩ | ⟨rfl, -⟩ <;> simp
    have hset := count_set hw (.took r) .exited
    rw [hlive, count_exited_took] at hset
    show q.taken.count none = (s.th.set i (.took r)).count .exited
    rw [hround.taken, List.count_append, hs.exits]
    exact hset.symm
  fits := by
    have hlive : w ≠ .exited := by rcases hbefore with ⟨rfl, -⟩ | ⟨rfl, -⟩ <;> simp
    exact Teardown.Fits.set hs.fits hw hlive _

theorem ThrPool.Inv.finishes {i : Nat} {j : J} (hs : s.Inv sz)
    (hw : s.th[i]? = some (.running j)) :
    { s with th := s.th.set i .ready, finished := s.finished ++ [j] }.Inv sz where
  size := hs.size
  serves := hs.serves
  max := hs.max
  length := List.length_set.trans hs.length
  takers := by
    intro k
    have htakers := hs.takers k
    show s.jobq.nonEmpty.count k = if (s.th.set i .ready)[k]? = some .taking then 1 else 0
    rw [getElem?_set_of_getElem? hw]
    by_cases hk : i = k
    · subst hk
      rw [hw] at htakers
      simpa using htakers
    · rw [if_neg hk]
      exact htakers
  pusher := hs.pusher
  externals := hs.externals
  accepted := hs.accepted
  started := by
    have hset : (running (s.th.set i .ready) ++ [j]).Perm (running s.th ++ []) :=
      running_set hw .ready
    rw [List.append_nil] at hset
    calc (jobs s.jobq.taken).Perm (s.finished ++ running s.th) := hs.started
      _ |>.Perm (s.finished ++ ([j] ++ running (s.th.set i .ready))) :=
          (hset.symm.trans List.perm_append_comm).append_left _
      _ |>.Perm (s.finished ++ [j] ++ running (s.th.set i .ready)) := by
          rw [List.append_assoc]
  exits := by
    have hset := count_set hw .ready .exited
    simp only [List.count_singleton, beq_iff_eq, reduceCtorEq, if_false, Nat.add_zero] at hset
    exact hs.exits.trans hset.symm
  fits := Teardown.Fits.set hs.fits hw nofun _

theorem Teardown.pills_pushed {nthreads k : Nat} (h : k ≤ nthreads) :
    (Teardown.pushed nthreads k).pills nthreads = k := by
  unfold Teardown.pushed
  split
  · rfl
  · show nthreads = k
    omega

theorem Teardown.fits_pushed {J : Type u} (nthreads k : Nat) (th : List (Worker J)) :
    (Teardown.pushed nthreads k).Fits nthreads th := by
  unfold Teardown.pushed
  split
  · assumption
  · exact ⟨Nat.zero_le _, fun i hi => absurd hi (Nat.not_lt_zero i)⟩

theorem Teardown.blocked_pushed (nthreads k : Nat) :
    (Teardown.pushed nthreads k).blocked = false := by
  unfold Teardown.pushed
  split <;> rfl

theorem Teardown.pushed_ne_notCalled (nthreads k : Nat) :
    Teardown.pushed nthreads k ≠ .notCalled := by
  unfold Teardown.pushed
  split <;> nofun

/-- The destructor is about to queue pill `k`; `before` is 1 if it is in the wait of `enq`. -/
def Teardown.Pushes (t : Teardown) (k before : Nat) : Prop :=
  t = .pushing k ∧ before = 0 ∨ t = .pushBlocked k ∧ before = 1

theorem ThrPool.Inv.pushes {k before : Nat} {r : Option Bool} (hs : s.Inv sz)
    (hpushes : s.teardown.Pushes k before)
    (hround : s.jobq.Enqueues q .destructor none before r) (hserves : q.Serves 0 0)
    (hr : r ≠ some false) :
    { s with jobq := q, teardown := .after s.nthreads k r }.Inv sz := by
  have hfits := hs.fits
  have hk : k < s.nthreads := by
    rcases hpushes with ⟨ht, -⟩ | ⟨ht, -⟩ <;> rw [ht] at hfits <;> exact hfits
  have hpills : s.teardown.pills s.nthreads = k := by
    rcases hpushes with ⟨ht, -⟩ | ⟨ht, -⟩ <;> rw [ht] <;> rfl
  have hpusher : s.jobq.hasSpace.count (.destructor, none) = before := by
    rw [hs.pusher]
    rcases hpushes with ⟨ht, rfl⟩ | ⟨ht, rfl⟩ <;> simp [ht, Teardown.blocked]
  have hothers : ∀ p, p ≠ (.destructor, none) → q.hasSpace.count p = s.jobq.hasSpace.count p := by
    intro p hp
    have hcount := hround.hasSpace p
    simpa [hp.symm] using hcount
  have hself : q.hasSpace.count (.destructor, none) = if r = none then 1 else 0 := by
    have hcount := hround.hasSpace (.destructor, none)
    simp only [if_true, true_and] at hcount
    omega
  refine ⟨hs.size, hserves, hround.max.trans hs.max, hs.length,
    fun i => (hround.nonEmpty i).trans (hs.takers i), ?_, ?_, ?_, hround.taken ▸ hs.started,
    hround.taken ▸ hs.exits, ?_⟩
  · intro e
    show q.hasSpace.count (.destructor, e) =
      if e = none ∧ (Teardown.after s.nthreads k r).blocked = true then 1 else 0
    rcases e with _ | j
    · rw [hself]
      rcases r with _ | b
      · rfl
      · simp [Teardown.after, Teardown.blocked_pushed]
    · rw [hothers _ (by simp), hs.pusher]
      simp
  · intro _ a e
    show q.hasSpace.count (.external a, e) = 0
    rw [hothers _ (by simp)]
    exact hs.externals (by rcases hpushes with ⟨ht, -⟩ | ⟨ht, -⟩ <;> simp [ht]) a e
  · obtain ⟨js, hjs⟩ := hs.accepted
    refine ⟨js, ?_⟩
    show q.accepted =
      js.map some ++ List.replicate ((Teardown.after s.nthreads k r).pills s.nthreads) none
    rw [hround.accepted, hjs, hpills]
    rcases r with _ | b
    · simp [Fifo.pushed, Teardown.after, Teardown.pills]
    · obtain rfl : b = true := by simpa using hr
      rw [Teardown.after, Teardown.pills_pushed hk, List.replicate_succ', ← List.append_assoc]
      rfl
  · show (Teardown.after s.nthreads k r).Fits s.nthreads s.th
    rcases r with _ | b
    · exact hk
    · exact Teardown.fits_pushed _ _ _

theorem ThrPool.Inv.destroy (hs : s.Inv sz) (hcalled : s.teardown = .notCalled)
    (hnobody : s.jobq.hasSpace = Cond.empty) :
    { s with teardown := .pushed s.nthreads 0 }.Inv sz where
  size := hs.size
  serves := hs.serves
  max := hs.max
  length := hs.length
  takers := hs.takers
  pusher := fun e => by
    show s.jobq.hasSpace.count (.destructor, e) = _
    rw [hnobody, Cond.count_empty, Teardown.blocked_pushed]
    simp
  externals := fun _ a e => by
    show s.jobq.hasSpace.count (.external a, e) = 0
    rw [hnobody, Cond.count_empty]
  accepted := by
    obtain ⟨js, hjs⟩ := hs.accepted
    refine ⟨js, ?_⟩
    show s.jobq.accepted =
      js.map some ++ List.replicate ((Teardown.pushed s.nthreads 0).pills s.nthreads) none
    rw [Teardown.pills_pushed (Nat.zero_le _), hjs, hcalled]
    rfl
  started := hs.started
  exits := hs.exits
  fits := Teardown.fits_pushed _ _ _

theorem ThrPool.Inv.joins {k : Nat} (hs : s.Inv sz) (ht : s.teardown = .joining k)
    (hexited : s.th[k]? = some .exited) : { s with teardown := .joining (k + 1) }.Inv sz := by
  have hpusher := hs.pusher
  have hexternals := hs.externals
  have haccepted := hs.accepted
  have hfits := hs.fits
  rw [ht] at hpusher hexternals haccepted hfits
  refine ⟨hs.size, hs.serves, hs.max, hs.length, hs.takers, hpusher, fun _ => hexternals nofun,
    haccepted, hs.started, hs.exits, ?_⟩
  have hk := (List.getElem?_eq_some_iff.mp hexited).1
  rw [hs.length] at hk
  refine ⟨hk, ?_⟩
  intro i hi
  rcases Nat.lt_succ_iff_lt_or_eq.mp hi with hlt | rfl
  · exact hfits.2 i hlt
  · exact hexited

theorem ThrPool.Inv.workerWakes {i : Nat} {c : Cond Nat} (hs : s.Inv sz)
    (h : s.jobq.nonEmpty.wake i = some c) :
    { s with jobq := { s.jobq with nonEmpty := c } }.Inv sz :=
  ⟨hs.size, hs.serves.wakeDeq h, hs.max, hs.length,
    fun k => (Cond.count_wake k h).trans (hs.takers k), hs.pusher, hs.externals, hs.accepted,
    hs.started, hs.exits, hs.fits⟩

theorem ThrPool.Inv.adderWakes {p : Adder × Option J} {c : Cond (Adder × Option J)}
    (hs : s.Inv sz) (h : s.jobq.hasSpace.wake p = some c) :
    { s with jobq := { s.jobq with hasSpace := c } }.Inv sz :=
  ⟨hs.size, hs.serves.wakeEnq h, hs.max, hs.length, hs.takers,
    fun e => (Cond.count_wake _ h).trans (hs.pusher e),
    fun hne a e => (Cond.count_wake _ h).trans (hs.externals hne a e), hs.accepted, hs.started,
    hs.exits, hs.fits⟩

end Preserved

/-! ### What a step can do

A round is the same whether the thread has just called or comes back from its wait, so the steps
of the pool are of few kinds. -/

inductive ThrPool.Moves (s : ThrPool J) : ThrPoolAction J → ThrPool J → Prop
  | external {action : ThrPoolAction J} {q : Fifo Nat Adder (Option J)} {a : Nat} {j : J}
      {before : Nat} {r : Option Bool} (hcalled : s.teardown = .notCalled)
      (hround : s.jobq.Enqueues q (.external a) (some j) before r) (hserves : q.Serves 0 0) :
      s.Moves action { s with jobq := q }
  | takes {action : ThrPoolAction J} {q : Fifo Nat Adder (Option J)} {i before : Nat}
      {w : Worker J} {r : Option (Option J)} (hw : s.th[i]? = some w)
      (hbefore : w = .ready ∧ before = 0 ∨ w = .taking ∧ before = 1)
      (hround : s.jobq.Dequeues q i before r) (hserves : q.Serves 0 0) :
      s.Moves action { s with jobq := q, th := s.th.set i (.took r) }
  | finishes {action : ThrPoolAction J} {i : Nat} {j : J} (hw : s.th[i]? = some (.running j)) :
      s.Moves action { s with th := s.th.set i .ready, finished := s.finished ++ [j] }
  | destroy {action : ThrPoolAction J} (hcalled : s.teardown = .notCalled)
      (hnobody : s.jobq.hasSpace = Cond.empty) :
      s.Moves action { s with teardown := .pushed s.nthreads 0 }
  | pushes {action : ThrPoolAction J} {q : Fifo Nat Adder (Option J)} {k before : Nat}
      {r : Option Bool} (hpushes : s.teardown.Pushes k before)
      (hround : s.jobq.Enqueues q .destructor none before r) (hserves : q.Serves 0 0)
      (hr : r ≠ some false) :
      s.Moves action { s with jobq := q, teardown := .after s.nthreads k r }
  | joins {action : ThrPoolAction J} {k : Nat} (ht : s.teardown = .joining k)
      (hexited : s.th[k]? = some .exited) : s.Moves action { s with teardown := .joining (k + 1) }
  | workerWakes {i : Nat} {c : Cond Nat} (h : s.jobq.nonEmpty.wake i = some c) :
      s.Moves (.workerWakes i) { s with jobq := { s.jobq with nonEmpty := c } }
  | adderWakes {p : Adder × Option J} {c : Cond (Adder × Option J)}
      (h : s.jobq.hasSpace.wake p = some c) :
      s.Moves (.adderWakes p) { s with jobq := { s.jobq with hasSpace := c } }

section Runs

variable {sz : Nat} {blocking : Bool} {s s' : ThrPool J} {action : ThrPoolAction J}

/-- An external thread in the wait of `enq`: the destructor has not been called. -/
theorem ThrPool.Inv.notCalled_of_woken {a : Nat} {e : Option J} (hs : s.Inv sz)
    (h : (.external a, e) ∈ s.jobq.hasSpace.woken) : s.teardown = .notCalled := by
  by_contra hcalled
  have hpos := Cond.count_pos_of_woken h
  rw [hs.externals hcalled a e] at hpos
  exact absurd hpos (Nat.lt_irrefl 0)

theorem ThrPool.moves_of_step (hs : s.Inv sz) (hproper : s.Proper action)
    (h : s.step action = some s') : s.Moves action s' := by
  cases action with
  | addJob a j pick =>
      obtain ⟨⟨r, q⟩, henq, rfl⟩ := Option.map_eq_some_iff.mp h
      exact .external hproper (Fifo.enqueues_enq henq)
        ((hs.serves.weaken 0 1).enq henq fun _ => hs.serves)
  | addResumes a j pick =>
      obtain ⟨⟨r, q⟩, henq, rfl⟩ := Option.map_eq_some_iff.mp h
      obtain ⟨hround, hwoken⟩ := Fifo.enqueues_enqResumes henq
      exact .external (hs.notCalled_of_woken hwoken) hround (hs.serves.enqResumes henq)
  | takeJob i pick =>
      simp only [ThrPool.step] at h
      split at h
      · next hw =>
          obtain ⟨⟨r, q⟩, hdeq, rfl⟩ := Option.map_eq_some_iff.mp h
          exact .takes hw (.inl ⟨rfl, rfl⟩) (Fifo.dequeues_deq hdeq)
            ((hs.serves.weaken 1 0).deq hdeq)
      · cases h
  | takeResumes i pick =>
      simp only [ThrPool.step] at h
      split at h
      · next hw =>
          obtain ⟨⟨r, q⟩, hdeq, rfl⟩ := Option.map_eq_some_iff.mp h
          exact .takes hw (.inr ⟨rfl, rfl⟩) (Fifo.dequeues_deqResumes hdeq)
            (hs.serves.deqResumes hdeq)
      · cases h
  | finish i =>
      simp only [ThrPool.step] at h
      split at h
      · next j hw =>
          cases h
          exact .finishes hw
      · cases h
  | destroy =>
      simp only [ThrPool.step] at h
      split at h
      · next hcalled =>
          cases h
          exact .destroy hcalled hproper
      · cases h
  | push pick =>
      simp only [ThrPool.step] at h
      split at h
      · next k ht =>
          obtain ⟨⟨r, q⟩, henq, rfl⟩ := Option.map_eq_some_iff.mp h
          exact .pushes (.inl ⟨ht, rfl⟩) (Fifo.enqueues_enq henq)
            ((hs.serves.weaken 0 1).enq henq nofun) (Fifo.enq_blocking henq)
      · cases h
  | pushResumes pick =>
      simp only [ThrPool.step] at h
      split at h
      · next k ht =>
          obtain ⟨⟨r, q⟩, henq, rfl⟩ := Option.map_eq_some_iff.mp h
          obtain ⟨c, -, hagain⟩ := Option.bind_eq_some_iff.mp henq
          exact .pushes (.inr ⟨ht, rfl⟩) (Fifo.enqueues_enqResumes henq).1
            (hs.serves.enqResumes henq) (Fifo.enq_blocking hagain)
      · cases h
  | join =>
      simp only [ThrPool.step] at h
      split at h
      · next k ht =>
          split at h
          · next hexited =>
              cases h
              exact .joins ht hexited
          · cases h
      · cases h
  | workerWakes i =>
      obtain ⟨c, hc, rfl⟩ := Option.map_eq_some_iff.mp h
      exact .workerWakes hc
  | adderWakes p =>
      obtain ⟨c, hc, rfl⟩ := Option.map_eq_some_iff.mp h
      exact .adderWakes hc

theorem ThrPool.Inv.moves (hs : s.Inv sz) (h : s.Moves action s') : s'.Inv sz := by
  cases h with
  | external hcalled hround hserves => exact hs.external hcalled hround hserves
  | takes hw hbefore hround hserves => exact hs.takes hw hbefore hround hserves
  | finishes hw => exact hs.finishes hw
  | destroy hcalled hnobody => exact hs.destroy hcalled hnobody
  | pushes hpushes hround hserves hr => exact hs.pushes hpushes hround hserves hr
  | joins ht hexited => exact hs.joins ht hexited
  | workerWakes h => exact hs.workerWakes h
  | adderWakes h => exact hs.adderWakes h

theorem thrPool_invariant (h : (thrPool J sz blocking).Reach ThrPool.Proper s) : s.Inv sz := by
  refine h.invariant (P := ThrPool.Inv sz) ?_ ?_
  · rintro _ rfl
    exact ThrPool.inv_create sz blocking
  · intro s s' action hs hproper hstep
    exact hs.moves (ThrPool.moves_of_step hs hproper hstep)

/-! ### Every job is run once -/

theorem ThrPool.Inv.count_pills (hs : s.Inv sz) :
    s.jobq.taken.count none + s.jobq.q.count none = s.teardown.pills s.nthreads := by
  obtain ⟨js, hjs⟩ := hs.accepted
  have hcount := congrArg (List.count none) hjs
  rw [hs.serves.order, List.count_append, List.count_append, List.count_replicate_self] at hcount
  have hjobs : (js.map some).count none = 0 := List.count_eq_zero.mpr (by simp)
  omega

theorem ThrPool.Inv.all_exited (hs : s.Inv sz) (h : s.Destroyed) : ∀ w ∈ s.th, w = .exited := by
  have hfits := hs.fits
  rw [h] at hfits
  intro w hw
  obtain ⟨i, hi, rfl⟩ := List.mem_iff_getElem.mp hw
  have hexited := hfits.2 i (hs.length ▸ hi)
  rw [List.getElem?_eq_getElem hi] at hexited
  exact Option.some.inj hexited

theorem ThrPool.Inv.drained (hs : s.Inv sz) (hsz : 0 < sz) (h : s.Destroyed) :
    s.jobq.q = [] := by
  have hexits : s.th.count .exited = s.nthreads := by
    rw [← hs.length]
    exact List.count_eq_length.mpr fun w hw => (hs.all_exited h w hw).symm
  -- the workers have taken all the pills
  have hnopill : s.jobq.q.count none = 0 := by
    have hpills := hs.count_pills
    rw [hs.exits, hexits, h] at hpills
    simp only [Teardown.pills] at hpills
    omega
  -- and the last thing that was queued is one
  by_contra hne
  obtain ⟨js, hjs⟩ := hs.accepted
  have hpos : s.nthreads ≠ 0 := by rw [hs.size]; omega
  have hlast := congrArg List.getLast? hjs
  rw [hs.serves.order, h, List.getLast?_append_of_ne_nil _ hne,
    List.getLast?_append_of_ne_nil _ (by simpa [Teardown.pills] using hpos)] at hlast
  simp only [Teardown.pills, List.getLast?_replicate, hpos, if_false] at hlast
  have hmem : none ∈ s.jobq.q := List.mem_of_getLast? hlast
  exact List.count_eq_zero.mp hnopill hmem

/-- **Every accepted job is run exactly once.**  In every run the jobs that `addJob` has accepted
    are those that have finished, those being run and those still queued, each once, and they are
    started in the order in which they came.  When the destructor of a pool with a thread has
    returned, all of them have finished and all threads have exited. -/
theorem thrPool_runs_each_job_once (h : (thrPool J sz blocking).Reach ThrPool.Proper s) :
    (jobs s.jobq.accepted).Perm (s.finished ++ running s.th ++ jobs s.jobq.q) ∧
    jobs s.jobq.taken <+: jobs s.jobq.accepted ∧
    (0 < sz → s.Destroyed →
      s.finished.Perm (jobs s.jobq.accepted) ∧ s.jobq.q = [] ∧ ∀ w ∈ s.th, w = .exited) := by
  have hs := thrPool_invariant h
  have horder : jobs s.jobq.accepted = jobs s.jobq.taken ++ jobs s.jobq.q := by
    rw [hs.serves.order, jobs_append]
  have honce : (jobs s.jobq.accepted).Perm (s.finished ++ running s.th ++ jobs s.jobq.q) := by
    rw [horder]
    exact hs.started.append_right _
  refine ⟨honce, ⟨jobs s.jobq.q, horder.symm⟩, ?_⟩
  intro hsz hdestroyed
  have hq := hs.drained hsz hdestroyed
  have hexited := hs.all_exited hdestroyed
  have hidle : running s.th = [] :=
    List.flatMap_eq_nil_iff.mpr fun w hw => by rw [hexited w hw]; rfl
  rw [hq, hidle] at honce
  simp only [jobs, List.flatMap_nil, List.append_nil] at honce
  exact ⟨honce.symm, hq, hexited⟩

/-- The destructor is called with a job running and another one queued. -/
theorem thrPool_runs_each_job_once_queued :
    ∃ s, (thrPool Nat 1 true).Reach ThrPool.Proper s ∧ s.Destroyed ∧ s.finished = [7, 8] ∧
      s.jobq.q = [] ∧ ∀ w ∈ s.th, w = .exited := by
  obtain ⟨s, hs, hview⟩ : ∃ s, (thrPool Nat 1 true).Reach ThrPool.Proper s ∧
      (s.teardown, s.nthreads, s.finished) = (.joining 1, 1, [7, 8]) :=
    System.Reach.of_exec (fun s action => decide (s.Proper action))
      [.addJob 0 7 0, .takeJob 0 default, .addJob 0 8 0, .destroy, .push 0, .finish 0,
        .takeJob 0 default, .finish 0, .takeJob 0 default, .join]
      rfl (fun _ _ h => of_decide_eq_true h) (by decide +kernel)
  simp only [Prod.mk.injEq] at hview
  obtain ⟨ht, hn, hfinished⟩ := hview
  have hdestroyed : s.Destroyed := by rw [ThrPool.Destroyed, ht, hn]
  have hdrained := (thrPool_runs_each_job_once hs).2.2 Nat.one_pos hdestroyed
  exact ⟨s, hs, hdestroyed, hfinished, hdrained.2⟩

/-! ### The teardown ends

Once the destructor has been called, every round lowers `work`: an element in the queue is worth
the round that takes it, the run of its job and the signal to a thread that waits for space.
Unless the destructor has returned, one of the threads can do its round. -/

def Worker.work : Worker J → Nat
  | .ready => 1
  | .running _ => 2
  | .taking | .exited => 0

def Teardown.work (nthreads : Nat) : Teardown → Nat
  | .notCalled => 0
  | .pushing k => 6 * (nthreads - k) + nthreads + 1
  | .pushBlocked k => 6 * (nthreads - k) + nthreads
  | .joining k => nthreads - k

def ThrPool.work (s : ThrPool J) : Nat :=
  3 * s.jobq.q.length + s.jobq.nonEmpty.woken.length + s.jobq.hasSpace.woken.length +
    (s.th.map Worker.work).sum + s.teardown.work s.nthreads

/-- Anything but a wakeup without a signal. -/
def ThrPoolAction.works : ThrPoolAction J → Bool
  | .workerWakes _ | .adderWakes _ => false
  | _ => true

theorem sum_work_set {J : Type u} {s : ThrPool J} {i : Nat} {w : Worker J}
    (h : s.th[i]? = some w) (w' : Worker J) :
    ((s.th.set i w').map Worker.work).sum + w.work =
      (s.th.map Worker.work).sum + w'.work := by
  obtain ⟨others, hth, hset⟩ := perm_of_getElem? h w'
  rw [(hth.map _).sum_nat, (hset.map _).sum_nat, List.map_cons, List.map_cons, List.sum_cons,
    List.sum_cons]
  omega

theorem Worker.work_took {J : Type u} (r : Option (Option J)) :
    (Worker.took r).work ≤ 2 * r.toList.length := by
  rcases r with _ | _ | j <;> simp [Worker.took, Worker.work]

theorem Teardown.work_pushed {nthreads k : Nat} (h : k ≤ nthreads) :
    (Teardown.pushed nthreads k).work nthreads ≤ 6 * (nthreads - k) + nthreads + 1 := by
  unfold Teardown.pushed
  split
  · exact Nat.le_refl _
  · show nthreads - 0 ≤ _
    omega

/-- A round of the destructor, and the pill with the signal that it may give. -/
theorem Teardown.Pushes.work_lt {J : Type u} {nthreads k before : Nat} {t : Teardown}
    {r : Option Bool}
    (h : t.Pushes k before) (hk : k < nthreads) (hr : r ≠ some false) :
    (Teardown.after nthreads k r).work nthreads + 4 * (Fifo.pushed r (none : Option J)).length <
      t.work nthreads + before := by
  have hwork : t.work nthreads + before = 6 * (nthreads - k) + nthreads + 1 := by
    rcases h with ⟨rfl, rfl⟩ | ⟨rfl, rfl⟩ <;> rfl
  rw [hwork]
  rcases r with _ | b
  · simp [Teardown.after, Teardown.work, Fifo.pushed]
  · obtain rfl : b = true := by simpa using hr
    have hnext : (Teardown.pushed nthreads (k + 1)).work nthreads ≤ _ :=
      Teardown.work_pushed hk
    simp only [Teardown.after, Fifo.pushed, if_true, List.length_singleton]
    omega

theorem ThrPool.Inv.pushes_lt {k before : Nat} (hs : s.Inv sz)
    (h : s.teardown.Pushes k before) : k < s.nthreads := by
  have hfits := hs.fits
  rcases h with ⟨ht, -⟩ | ⟨ht, -⟩ <;> rw [ht] at hfits <;> exact hfits

theorem ThrPool.work_lt (hs : s.Inv sz) (hcalled : s.teardown ≠ .notCalled)
    (hworks : action.works = true) (h : s.Moves action s') : s'.work < s.work := by
  cases h with
  | external hnot => exact absurd hnot hcalled
  | destroy hnot => exact absurd hnot hcalled
  | workerWakes => cases hworks
  | adderWakes => cases hworks
  | @takes _ q i before w r hw hbefore hround hserves =>
      have hth := sum_work_set hw (.took r)
      have htook := Worker.work_took r
      have hlength := congrArg List.length hround.q
      have hnonEmpty := hround.nonEmptyWoken
      have hhasSpace := hround.hasSpaceWoken
      have hwork : w.work + before = 1 := by
        rcases hbefore with ⟨rfl, rfl⟩ | ⟨rfl, rfl⟩ <;> rfl
      have htaken : r.toList.length ≤ 1 := by cases r <;> simp
      rw [List.length_append] at hlength
      simp only [ThrPool.work]
      omega
  | @finishes _ i j hw =>
      have hth : ((s.th.set i .ready).map Worker.work).sum + 2 =
          (s.th.map Worker.work).sum + 1 := sum_work_set hw .ready
      simp only [ThrPool.work]
      omega
  | @pushes _ q k before r hpushes hround hserves hr =>
      have hpill := hpushes.work_lt (J := J) (hs.pushes_lt hpushes) hr
      have hlength := congrArg List.length hround.q
      have hnonEmpty := hround.nonEmptyWoken
      have hhasSpace := hround.hasSpaceWoken
      rw [List.length_append] at hlength
      simp only [ThrPool.work]
      omega
  | @joins _ k ht hexited =>
      have hk := (List.getElem?_eq_some_iff.mp hexited).1
      rw [hs.length] at hk
      simp only [ThrPool.work, ht, Teardown.work]
      omega

theorem ThrPool.Moves.called (h : s.Moves action s') (hcalled : s.teardown ≠ .notCalled) :
    s'.teardown ≠ .notCalled := by
  cases h with
  | external => exact hcalled
  | takes => exact hcalled
  | finishes => exact hcalled
  | destroy => exact Teardown.pushed_ne_notCalled _ _
  | @pushes _ _ k _ r =>
      show Teardown.after s.nthreads k r ≠ .notCalled
      cases r with
      | none => nofun
      | some => exact Teardown.pushed_ne_notCalled _ _
  | joins => nofun
  | workerWakes => exact hcalled
  | adderWakes => exact hcalled

/-- One of the threads can do a round. -/
def ThrPool.Live (s : ThrPool J) : Prop :=
  ∃ action, action.works = true ∧ s.Proper action ∧ (s.step action).isSome

/-- With an element in the queue and a worker left, a worker can take the element or is on its
    way. -/
theorem ThrPool.Inv.live_of_worker {i : Nat} {w : Worker J} (hs : s.Inv sz)
    (hw : s.th[i]? = some w) (hexited : w ≠ .exited) (hq : s.jobq.q ≠ []) : s.Live := by
  cases w with
  | ready =>
      obtain ⟨pick, hpick⟩ := s.jobq.exists_deq i
      exact ⟨.takeJob i pick, rfl, trivial, by simp [ThrPool.step, hw, hpick]⟩
  | running j =>
      exact ⟨.finish i, rfl, trivial, by simp [ThrPool.step, hw]⟩
  | exited => exact absurd rfl hexited
  | taking =>
      -- the worker has been woken, or another one has been for the element
      obtain ⟨k, hk⟩ : ∃ k, k ∈ s.jobq.nonEmpty.woken := by
        have hcount : 0 < s.jobq.nonEmpty.count i := by rw [hs.takers, hw]; simp
        rcases Cond.mem_of_count_pos hcount with hasleep | hwoken
        · have hcovers := hs.serves.nonEmpty (List.ne_nil_of_mem hasleep)
          have hlength := List.length_pos_of_ne_nil hq
          exact List.exists_mem_of_length_pos (by omega)
        · exact ⟨i, hwoken⟩
      have htaking : s.th[k]? = some .taking := by
        by_contra hnot
        have hpos := Cond.count_pos_of_woken hk
        rw [hs.takers, if_neg hnot] at hpos
        exact absurd hpos (Nat.lt_irrefl 0)
      obtain ⟨pick, hpick⟩ := Fifo.exists_deqResumes hk
      exact ⟨.takeResumes k pick, rfl, trivial, by simp [ThrPool.step, htaking, hpick]⟩

/-- Fewer pills taken than there are workers: one of these is left. -/
theorem ThrPool.Inv.exists_worker (hs : s.Inv sz) (h : s.jobq.taken.count none < s.nthreads) :
    ∃ (i : Nat) (w : Worker J), s.th[i]? = some w ∧ w ≠ .exited := by
  by_contra hnone
  push Not at hnone
  have hall : s.th.count .exited = s.th.length := by
    refine List.count_eq_length.mpr fun w hw => ?_
    obtain ⟨i, hi, rfl⟩ := List.mem_iff_getElem.mp hw
    exact (hnone i _ (List.getElem?_eq_getElem hi)).symm
  rw [hs.exits, hall, hs.length] at h
  exact absurd h (Nat.lt_irrefl _)

theorem ThrPool.Inv.live (hs : s.Inv sz) (hcalled : s.teardown ≠ .notCalled)
    (hdestroyed : ¬ s.Destroyed) : s.Live := by
  have hpills := hs.count_pills
  rcases ht : s.teardown with _ | k | k | k
  · exact absurd ht hcalled
  · obtain ⟨pick, hpick⟩ := s.jobq.exists_enq .destructor none true
    exact ⟨.push pick, rfl, trivial, by simp [ThrPool.step, ht, hpick]⟩
  · have hk := hs.pushes_lt (.inr ⟨ht, rfl⟩)
    have hcount : 0 < s.jobq.hasSpace.count (.destructor, none) := by
      rw [hs.pusher, ht]
      simp [Teardown.blocked]
    rcases Cond.mem_of_count_pos hcount with hasleep | hwoken
    · rw [ht] at hpills
      simp only [Teardown.pills] at hpills
      obtain ⟨i, w, hw, hexited⟩ := hs.exists_worker (by omega)
      by_cases hq : s.jobq.q = []
      · -- an empty queue has space, and only the destructor is in `enq`
        have hcovers := hs.serves.hasSpace (List.ne_nil_of_mem hasleep)
        rw [hq, hs.max] at hcovers
        have hlength : 0 < s.jobq.hasSpace.woken.length := by
          simp only [List.length_nil] at hcovers
          omega
        obtain ⟨⟨p, e⟩, hmem⟩ := List.exists_mem_of_length_pos hlength
        obtain ⟨rfl, rfl⟩ : p = .destructor ∧ e = none := by
          have hpos := Cond.count_pos_of_woken hmem
          cases p with
          | external a =>
              rw [hs.externals hcalled] at hpos
              exact absurd hpos (Nat.lt_irrefl 0)
          | destructor =>
              refine ⟨rfl, ?_⟩
              by_contra hne
              rw [hs.pusher, if_neg fun hand => hne hand.1] at hpos
              exact absurd hpos (Nat.lt_irrefl 0)
        obtain ⟨pick, hpick⟩ := Fifo.exists_enqResumes hmem
        exact ⟨.pushResumes pick, rfl, trivial, by simp [ThrPool.step, ht, hpick]⟩
      · exact hs.live_of_worker hw hexited hq
    · obtain ⟨pick, hpick⟩ := Fifo.exists_enqResumes hwoken
      exact ⟨.pushResumes pick, rfl, trivial, by simp [ThrPool.step, ht, hpick]⟩
  · have hfits := hs.fits
    rw [ht] at hfits hpills
    have hk : k < s.nthreads := by
      refine Nat.lt_of_le_of_ne hfits.1 ?_
      rintro rfl
      exact hdestroyed ht
    have hlt : k < s.th.length := hs.length ▸ hk
    by_cases hexited : s.th[k] = .exited
    · refine ⟨.join, rfl, trivial, ?_⟩
      simp [ThrPool.step, ht, List.getElem?_eq_getElem hlt, hexited]
    · -- the pill of this thread is still in the queue
      have hw : s.th[k]? = some s.th[k] := List.getElem?_eq_getElem hlt
      refine hs.live_of_worker hw hexited ?_
      intro hq
      have hall : s.th.count .exited = s.th.length := by
        rw [hq] at hpills
        simp only [Teardown.pills, List.count_nil, Nat.add_zero] at hpills
        rw [← hs.exits, hpills, hs.length]
      exact hexited (List.count_eq_length.mp hall _ (List.getElem_mem hlt)).symm

/-- **The teardown ends.**  Once the destructor has been called the threads of the pool have only
    `work` rounds left to do, however they are scheduled, and as long as the destructor has not
    returned one of them can do its next round: nobody waits for a signal that does not come.  A
    job that runs is taken to return. -/
theorem thrPool_teardown_ends (h : (thrPool J sz blocking).Reach ThrPool.Proper s)
    (hcalled : s.teardown ≠ .notCalled) :
    (∀ actions final, (thrPool J sz blocking).exec
        (fun s action => decide (s.Proper action) && action.works) s actions = some final →
      actions.length + final.work ≤ s.work) ∧
    (¬ s.Destroyed → s.Live) := by
  have hs := thrPool_invariant h
  refine ⟨?_, hs.live hcalled⟩
  intro actions final hexec
  have hfalls : ∀ (s s' : ThrPool J) (action : ThrPoolAction J),
      s.Inv sz ∧ s.teardown ≠ .notCalled →
      (decide (s.Proper action) && action.works) = true →
      (thrPool J sz blocking).step s action = some s' →
      (s'.Inv sz ∧ s'.teardown ≠ .notCalled) ∧ s'.work < s.work := by
    rintro s s' action ⟨hs, hcalled⟩ hguard hstep
    simp only [Bool.and_eq_true, decide_eq_true_eq] at hguard
    have hmoves := ThrPool.moves_of_step hs hguard.1 hstep
    exact ⟨⟨hs.moves hmoves, hmoves.called hcalled⟩, ThrPool.work_lt hs hcalled hguard.2 hmoves⟩
  exact (System.length_le_rank hfalls ⟨hs, hcalled⟩ hexec).2

/-- The worker sleeps when the destructor is called. -/
theorem thrPool_teardown_ends_asleep :
    ∃ s, (thrPool Nat 1 true).Reach ThrPool.Proper s ∧ s.teardown = .pushing 0 ∧
      s.jobq.nonEmpty = ⟨[0], []⟩ ∧ s.work = 8 ∧ s.Live := by
  obtain ⟨s, hs, hview⟩ : ∃ s, (thrPool Nat 1 true).Reach ThrPool.Proper s ∧
      (s.teardown, s.nthreads, s.jobq.nonEmpty, s.work) = (.pushing 0, 1, ⟨[0], []⟩, 8) :=
    System.Reach.of_exec (fun s action => decide (s.Proper action))
      [.takeJob 0 default, .destroy] rfl (fun _ _ h => of_decide_eq_true h) (by decide +kernel)
  simp only [Prod.mk.injEq] at hview
  obtain ⟨ht, hn, hasleep, hwork⟩ := hview
  have hends := thrPool_teardown_ends hs (by rw [ht]; nofun)
  exact ⟨s, hs, ht, hasleep, hwork, hends.2 (by rw [ThrPool.Destroyed, ht]; nofun)⟩

end Runs

end DistributedLab.Rpc
