import Mathlib.Data.List.Count

/-!
# Condition variables

The threads at a condition variable.  A thread that waits gives the mutex up and sleeps; `signal`
wakes one of the sleepers, `broadcast` all of them, and a sleeper may also wake by itself.  A
thread that is awake has to get the mutex back before it goes on, and in the meantime others may
take what it was woken for.

`Covers` is how a loop around a wait is shown to miss no wakeup: while a thread sleeps there are
as many threads awake as there are things to be had.
-/

namespace DistributedLab.Monitor

variable {τ : Type u}

/-- The threads asleep in the wait, and those that have been woken and will get the mutex. -/
structure Cond (τ : Type u) where
  waiting : List τ
  woken : List τ
deriving DecidableEq, Repr

def Cond.empty : Cond τ := ⟨[], []⟩

def Cond.wait (c : Cond τ) (t : τ) : Cond τ := { c with waiting := t :: c.waiting }

def Cond.broadcast (c : Cond τ) : Cond τ := ⟨[], c.waiting ++ c.woken⟩

section Wakeups

variable [DecidableEq τ]

/-- A sleeper wakes. -/
def Cond.wake (c : Cond τ) (t : τ) : Option (Cond τ) :=
  if t ∈ c.waiting then some ⟨c.waiting.erase t, t :: c.woken⟩ else none

/-- A signal is lost if nobody sleeps; `pick` is the one that wakes. -/
def Cond.signal (c : Cond τ) (pick : τ) : Option (Cond τ) :=
  if c.waiting = [] then some c else c.wake pick

/-- A woken thread has the mutex again. -/
def Cond.resume (c : Cond τ) (t : τ) : Option (Cond τ) :=
  if t ∈ c.woken then some { c with woken := c.woken.erase t } else none

end Wakeups

/-- How often a thread is in the wait, asleep or woken. -/
def Cond.count [DecidableEq τ] (c : Cond τ) (t : τ) : Nat := c.waiting.count t + c.woken.count t

/-- While a thread sleeps, `n` threads at least are awake. -/
def Cond.Covers (c : Cond τ) (n : Nat) : Prop := c.waiting ≠ [] → n ≤ c.woken.length

theorem Cond.covers_zero (c : Cond τ) : c.Covers 0 := fun _ => Nat.zero_le _

theorem Cond.Covers.mono {c : Cond τ} {m n : Nat} (h : c.Covers n) (hle : m ≤ n) : c.Covers m :=
  fun hne => Nat.le_trans hle (h hne)

section Steps

variable [DecidableEq τ] {c d : Cond τ} {t : τ} {n : Nat}

theorem Cond.wake_eq (h : c.wake t = some d) :
    t ∈ c.waiting ∧ d = ⟨c.waiting.erase t, t :: c.woken⟩ := by
  unfold Cond.wake at h
  split at h
  · next hmem => exact ⟨hmem, (Option.some.inj h).symm⟩
  · cases h

theorem Cond.resume_eq (h : c.resume t = some d) :
    t ∈ c.woken ∧ d = { c with woken := c.woken.erase t } := by
  unfold Cond.resume at h
  split at h
  · next hmem => exact ⟨hmem, (Option.some.inj h).symm⟩
  · cases h

theorem Cond.resume_subset (h : c.resume t = some d) :
    t ∈ c.woken ∧ d.waiting = c.waiting ∧ d.woken ⊆ c.woken := by
  obtain ⟨hmem, rfl⟩ := Cond.resume_eq h
  exact ⟨hmem, rfl, List.erase_subset⟩

theorem Cond.Covers.wake (h : c.Covers n) (hwake : c.wake t = some d) : d.Covers (n + 1) := by
  obtain ⟨hmem, rfl⟩ := Cond.wake_eq hwake
  intro _
  exact Nat.succ_le_succ (h (List.ne_nil_of_mem hmem))

/-- One more thing to be had, and a signal. -/
theorem Cond.Covers.signal (h : c.Covers n) (hsignal : c.signal t = some d) :
    d.Covers (n + 1) := by
  unfold Cond.signal at hsignal
  split at hsignal
  · next hnil =>
      obtain rfl := Option.some.inj hsignal
      exact fun hne => absurd hnil hne
  · exact h.wake hsignal

/-- A woken thread goes on and takes one of the things, or finds none. -/
theorem Cond.Covers.resume (h : c.Covers n) (hresume : c.resume t = some d) :
    d.Covers (n - 1) := by
  obtain ⟨hmem, rfl⟩ := Cond.resume_eq hresume
  intro hne
  have hlength := h hne
  show n - 1 ≤ (c.woken.erase t).length
  rw [List.length_erase_of_mem hmem]
  omega

/-! ### Who is in the wait -/

variable (s : τ)

theorem Cond.count_empty : (Cond.empty : Cond τ).count s = 0 := rfl

theorem Cond.count_wait : (c.wait t).count s = c.count s + if t = s then 1 else 0 := by
  simp only [Cond.count, Cond.wait, List.count_cons, beq_iff_eq]
  omega

theorem Cond.count_wake (h : c.wake t = some d) : d.count s = c.count s := by
  obtain ⟨hmem, rfl⟩ := Cond.wake_eq h
  simp only [Cond.count, List.count_cons, beq_iff_eq]
  by_cases hs : t = s
  · subst hs
    have hpos := List.count_pos_iff.mpr hmem
    rw [List.count_erase_self, if_pos rfl]
    omega
  · rw [List.count_erase_of_ne (Ne.symm hs), if_neg hs, Nat.add_zero]

theorem Cond.count_signal (h : c.signal t = some d) : d.count s = c.count s := by
  unfold Cond.signal at h
  split at h
  · obtain rfl := Option.some.inj h
    rfl
  · exact Cond.count_wake s h

theorem Cond.count_resume (h : c.resume t = some d) :
    c.count s = d.count s + if t = s then 1 else 0 := by
  obtain ⟨hmem, rfl⟩ := Cond.resume_eq h
  simp only [Cond.count]
  by_cases hs : t = s
  · subst hs
    have hpos := List.count_pos_iff.mpr hmem
    rw [List.count_erase_self, if_pos rfl]
    omega
  · rw [List.count_erase_of_ne (Ne.symm hs), if_neg hs, Nat.add_zero]

theorem Cond.count_pos_of_woken (h : t ∈ c.woken) : 0 < c.count t :=
  Nat.add_pos_right _ (List.count_pos_iff.mpr h)

theorem Cond.count_pos_of_waiting (h : t ∈ c.waiting) : 0 < c.count t :=
  Nat.add_pos_left (List.count_pos_iff.mpr h) _

theorem Cond.mem_of_count_pos (h : 0 < c.count t) : t ∈ c.waiting ∨ t ∈ c.woken := by
  rcases Nat.add_pos_iff_pos_or_pos.mp h with hasleep | hawake
  · exact .inl (List.count_pos_iff.mp hasleep)
  · exact .inr (List.count_pos_iff.mp hawake)

theorem Cond.count_broadcast : c.broadcast.count s = c.count s := by
  simp only [Cond.count, Cond.broadcast, List.count_nil, List.count_append, Nat.zero_add]

theorem Cond.woken_signal (h : c.signal t = some d) :
    d.woken.length ≤ c.woken.length + 1 := by
  unfold Cond.signal at h
  split at h
  · obtain rfl := Option.some.inj h
    exact Nat.le_succ _
  · obtain ⟨-, rfl⟩ := Cond.wake_eq h
    exact Nat.le_refl _

theorem Cond.woken_resume (h : c.resume t = some d) :
    d.woken.length + 1 = c.woken.length := by
  obtain ⟨hmem, rfl⟩ := Cond.resume_eq h
  show (c.woken.erase t).length + 1 = c.woken.length
  rw [List.length_erase_of_mem hmem]
  exact Nat.sub_add_cancel (List.length_pos_of_mem hmem)

theorem Cond.exists_resume (h : t ∈ c.woken) : ∃ d, c.resume t = some d :=
  ⟨_, if_pos h⟩

/-- A signal can always be given. -/
theorem Cond.exists_signal (c : Cond τ) [Inhabited τ] : ∃ pick d, c.signal pick = some d := by
  rcases hwaiting : c.waiting with _ | ⟨t, rest⟩
  · exact ⟨default, c, if_pos hwaiting⟩
  · refine ⟨t, ⟨c.waiting.erase t, t :: c.woken⟩, ?_⟩
    rw [Cond.signal, if_neg (by simp [hwaiting]), Cond.wake, if_pos (by simp [hwaiting])]

end Steps

end DistributedLab.Monitor
