import Mathlib.Data.List.Nodup

/-!
# Queues that hand something on

One thing is handed on along a queue.  The first in the queue has it or is about to
get it; it gives it to the second and leaves.  Others join at the end, once.
-/

namespace DistributedLab.Relay

variable {κ : Type u}

/-- `y` is right after `x` in the queue. -/
def Follows (queue : List κ) (x y : κ) : Prop := [x, y] <:+: queue

/-- What can happen to the queue. -/
inductive Advances : List κ → List κ → Prop
  | stay {queue : List κ} : Advances queue queue
  | join {queue : List κ} {x : κ} (h : x ∉ queue) : Advances queue (queue ++ [x])
  | leave {x y : κ} {rest : List κ} : Advances (x :: y :: rest) (y :: rest)

variable {queue rest : List κ} {w x y z : κ}

theorem Advances.nodup {queue' : List κ} (h : Advances queue queue') (hnodup : queue.Nodup) :
    queue'.Nodup := by
  cases h with
  | stay => exact hnodup
  | join hx =>
      rw [List.nodup_append]
      refine ⟨hnodup, List.nodup_singleton _, ?_⟩
      intro member hmember last hlast
      rw [List.mem_singleton.mp hlast]
      rintro rfl
      exact hx hmember
  | leave => exact hnodup.of_cons

theorem Follows.mem_left (h : Follows queue x y) : x ∈ queue := h.subset (by simp)

theorem Follows.append (h : Follows queue x y) (more : List κ) : Follows (queue ++ more) x y :=
  h.trans ⟨[], more, rfl⟩

/-- The one that joins is behind the one that was last. -/
theorem follows_join (h : queue.getLast? = some x) : Follows (queue ++ [y]) x y := by
  obtain ⟨init, rfl⟩ := List.getLast?_eq_some_iff.mp h
  exact ⟨init, [], by simp⟩

theorem follows_cons_iff :
    Follows (z :: rest) x y ↔ (x = z ∧ rest.head? = some y) ∨ Follows rest x y := by
  unfold Follows
  rw [List.infix_cons_iff]
  cases rest with
  | nil => simp
  | cons first rest => simp [eq_comm]

/-- The one behind the first is the second. -/
theorem Follows.of_head (hnodup : queue.Nodup) (h : Follows queue x y)
    (hhead : queue.head? = some x) : ∃ rest, queue = x :: y :: rest := by
  obtain ⟨tail, rfl⟩ := List.head?_eq_some_iff.mp hhead
  rcases follows_cons_iff.mp h with ⟨-, hsecond⟩ | htail
  · obtain ⟨rest, rfl⟩ := List.head?_eq_some_iff.mp hsecond
    exact ⟨rest, rfl⟩
  · exact absurd htail.mem_left (List.nodup_cons.mp hnodup).1

/-- When the first leaves, the others keep their places, except for the second, which had nobody
    else before it. -/
theorem Follows.of_leave (h : Follows (z :: y :: rest) x w) (hw : w ≠ y) :
    Follows (y :: rest) x w := by
  rcases follows_cons_iff.mp h with ⟨-, hsecond⟩ | htail
  · exact absurd (Option.some.inj hsecond).symm hw
  · exact htail

end DistributedLab.Relay
