import DistributedLab.Transition
import Mathlib.Data.Finset.Card
import Mathlib.Logic.Function.Basic

/-!
# The client of the replicated state machine: changing the primary

`rsm_client` sends every request to the member that it takes for the primary.  When this member
fails, `primary_failure` takes it out of `known_mems` and turns to the first of those that are
left.

The loop of `primary_failure` erases from the vector that it goes over and increments the
iterator all the same.  So the element behind an erased one is not looked at, and after erasing
the last element the iterator stands behind `end()` and the loop goes on.
-/

namespace DistributedLab.Rsm

open Transition

/-! ### `primary_failure` and `init_members` -/

/-- `class rsm_client`. -/
structure RsmClient where
  primary : String
  knownMems : List String
deriving DecidableEq, Repr

/-- The loop of `primary_failure`, from the element that the iterator stands on.  `none` is an
    iterator behind `end()`. -/
def eraseLoop (primary : String) : List String → Option (List String)
  | [] => some []
  | [mem] => if mem = primary then none else some [mem]
  | mem :: skipped :: rest =>
      if mem = primary then (eraseLoop primary rest).map (skipped :: ·)
      else (eraseLoop primary (skipped :: rest)).map (mem :: ·)

/-- `rsm_client::primary_failure`; `none` is an access out of range. -/
def RsmClient.primaryFailure (c : RsmClient) : Option RsmClient :=
  match eraseLoop c.primary c.knownMems with
  | none => none
  | some [] => none
  | some (first :: rest) => some { primary := first, knownMems := first :: rest }

/-- `rsm_client::init_members` with the answer of the primary; `none` is the failed `VERIFY`. -/
def RsmClient.initMembers (newView : List String) : Option RsmClient :=
  match newView.getLast? with
  | none => none
  | some last => some { primary := last, knownMems := newView.dropLast }

/-- Every occurrence of `primary` has another member right behind it. -/
def Spaced (primary : String) (mems : List String) : Prop :=
  ∀ before after, mems = before ++ primary :: after →
    ∃ next rest, after = next :: rest ∧ next ≠ primary

section Loop

variable {primary mem next : String} {mems rest : List String}

theorem spaced_nil : Spaced primary [] := by
  intro before after heq
  simp at heq

theorem Spaced.of_append (before : List String) (h : Spaced primary (before ++ mems)) :
    Spaced primary mems := by
  intro before' after heq
  exact h (before ++ before') after (by rw [heq, List.append_assoc])

theorem Spaced.cons_of_ne (h : Spaced primary mems) (hne : mem ≠ primary) :
    Spaced primary (mem :: mems) := by
  intro before after heq
  cases before with
  | nil => exact absurd (List.cons.inj heq).1 hne
  | cons first before => exact h before after (List.cons.inj heq).2

theorem spaced_cons_of_ne (hne : mem ≠ primary) :
    Spaced primary (mem :: mems) ↔ Spaced primary mems :=
  ⟨fun h => Spaced.of_append [mem] h, fun h => h.cons_of_ne hne⟩

theorem spaced_primary_cons :
    Spaced primary (primary :: next :: rest) ↔ next ≠ primary ∧ Spaced primary rest := by
  constructor
  · intro h
    obtain ⟨next', rest', heq, hne⟩ := h [] (next :: rest) rfl
    obtain ⟨rfl, rfl⟩ := List.cons.inj heq
    exact ⟨hne, Spaced.of_append [primary, next] h⟩
  · rintro ⟨hne, h⟩ before after heq
    cases before with
    | nil => exact ⟨next, rest, (List.cons.inj heq).2.symm, hne⟩
    | cons first before => exact h.cons_of_ne hne before after (List.cons.inj heq).2

theorem not_spaced_singleton : ¬ Spaced primary [primary] := by
  intro h
  obtain ⟨next, rest, heq, -⟩ := h [] [] rfl
  cases heq

/-- The loop removes the primary and nothing else exactly from the lists in which it is spaced. -/
theorem eraseLoop_eq_filter_iff (primary : String) (mems : List String) :
    eraseLoop primary mems = some (mems.filter (· ≠ primary)) ↔ Spaced primary mems := by
  fun_induction eraseLoop primary mems with
  | case1 => simp [spaced_nil]
  | case2 => simp [not_spaced_singleton]
  | case3 mem hne => simp [hne, spaced_cons_of_ne hne, spaced_nil]
  | case4 next rest ih =>
      rw [spaced_primary_cons, List.filter_cons_of_neg (by simp)]
      by_cases hnext : next = primary
      · -- the skipped element is in the result and not among those that should be left
        refine ⟨fun heq => ?_, fun h => absurd hnext h.1⟩
        obtain ⟨kept, -, hkept⟩ := Option.map_eq_some_iff.mp heq
        have hmem : next ∈ (next :: rest).filter (· ≠ primary) := hkept ▸ List.mem_cons_self
        simp [hnext] at hmem
      · rw [List.filter_cons_of_pos (by simpa using hnext), ← ih]
        simp [Option.map_eq_some_iff, hnext]
  | case5 mem next rest hne ih =>
      rw [spaced_cons_of_ne hne, ← ih, List.filter_cons_of_pos (by simpa using hne)]
      simp [Option.map_eq_some_iff]

instance (primary : String) (mems : List String) : Decidable (Spaced primary mems) :=
  decidable_of_iff _ (eraseLoop_eq_filter_iff primary mems)

theorem filter_ne_cons (h : ∃ mem ∈ mems, mem ≠ primary) :
    ∃ first rest, mems.filter (· ≠ primary) = first :: rest := by
  obtain ⟨mem, hmem, hne⟩ := h
  have hfilter : mem ∈ mems.filter (· ≠ primary) := List.mem_filter.mpr ⟨hmem, by simpa using hne⟩
  exact List.exists_cons_of_ne_nil (List.ne_nil_of_mem hfilter)

/-- What `primary_failure` should do: every occurrence of the primary goes and the first of the
    others takes its place. -/
def RsmClient.FailsOver (c next : RsmClient) : Prop :=
  next.knownMems = c.knownMems.filter (· ≠ c.primary) ∧
    next.knownMems.head? = some next.primary

theorem RsmClient.failsOver_iff_spaced (c : RsmClient) (h : ∃ mem ∈ c.knownMems, mem ≠ c.primary) :
    (∃ next, c.primaryFailure = some next ∧ c.FailsOver next) ↔ Spaced c.primary c.knownMems := by
  obtain ⟨first, rest, hfilter⟩ := filter_ne_cons h
  rw [← eraseLoop_eq_filter_iff, hfilter]
  constructor
  · rintro ⟨next, hnext, hmems, -⟩
    unfold RsmClient.primaryFailure at hnext
    split at hnext
    · cases hnext
    · cases hnext
    · rename_i first' rest' hloop
      obtain rfl := Option.some.inj hnext
      rw [hloop, ← hfilter, ← hmems]
  · intro hloop
    refine ⟨⟨first, first :: rest⟩, ?_, hfilter.symm, rfl⟩
    rw [RsmClient.primaryFailure, hloop]

end Loop

/-! ### The loop of `invoke` -/

/-- What a thread in `invoke` waits for with the mutex released: the answer to its request, or
    the answer of `init_members`.  `target` is the primary it has asked. -/
inductive Waiting where
  | invoking (target : String)
  | asking (target : String)
deriving DecidableEq, Repr

def Waiting.target : Waiting → String
  | .invoking target => target
  | .asking target => target

/-- The client and its threads, with the last member list that `init_members` has got and the
    members found failed since then. -/
structure Failover where
  client : RsmClient
  threads : Nat → Option Waiting
  members : List String
  failed : List String

inductive Failover.Action where
  /-- A thread calls `invoke`. -/
  | invoke (id : Nat)
  /-- The request is answered with OK. -/
  | done (id : Nat)
  | busy (id : Nat)
  | notPrimary (id : Nat)
  /-- `safebind` or the call has failed, in `invoke` or in `init_members`. -/
  | failure (id : Nat)
  /-- `init_members` gets a member list. -/
  | view (id : Nat) (newView : List String)
deriving DecidableEq, Repr

def Failover.wait (s : Failover) (id : Nat) (waiting : Option Waiting) : Failover :=
  { s with threads := Function.update s.threads id waiting }

def Failover.step (s : Failover) : Failover.Action → Option Failover
  | .invoke id =>
      match s.threads id with
      | none => some (s.wait id (some (.invoking s.client.primary)))
      | some _ => none
  | .done id =>
      match s.threads id with
      | some (.invoking _) => some (s.wait id none)
      | _ => none
  | .busy id =>
      match s.threads id with
      | some (.invoking _) => some (s.wait id (some (.invoking s.client.primary)))
      | _ => none
  | .notPrimary id =>
      match s.threads id with
      | some (.invoking _) => some (s.wait id (some (.asking s.client.primary)))
      | _ => none
  | .failure id =>
      match s.threads id with
      | none => none
      | some waiting =>
          match s.client.primaryFailure with
          | none => none
          | some client => some
              { s.wait id (some (.invoking client.primary)) with
                client := client
                failed := s.failed ++ [waiting.target] }
  | .view id newView =>
      match s.threads id with
      | some (.asking _) =>
          match RsmClient.initMembers newView with
          | none => none
          | some client => some
              { s.wait id (some (.invoking client.primary)) with
                client := client
                members := newView
                failed := [] }
      | _ => none

/-- The constructor returns only when `init_members` has got a member list. -/
def failover : System Failover Failover.Action where
  init := fun s => ∃ view client, RsmClient.initMembers view = some client ∧
    s = { client := client, threads := fun _ => none, members := view, failed := [] }
  step := Failover.step

/-- A failure is that of the primary, leaves another member, and finds the primary spaced. -/
def Failover.Orderly (s : Failover) : Failover.Action → Prop
  | .failure id => (∀ waiting ∈ s.threads id, waiting.target = s.client.primary) ∧
      s.failed.length + 1 < s.members.toFinset.card ∧ Spaced s.client.primary s.client.knownMems
  | _ => True

instance (s : Failover) : DecidablePred s.Orderly
  | .failure _ => inferInstanceAs (Decidable (_ ∧ _))
  | .invoke _ => isTrue trivial
  | .done _ => isTrue trivial
  | .busy _ => isTrue trivial
  | .notPrimary _ => isTrue trivial
  | .view _ _ => isTrue trivial

/-- The candidates are the members that have not been found failed. -/
structure Failover.Tracks (s : Failover) : Prop where
  primary_mem : s.client.primary ∈ s.members
  primary_fresh : s.client.primary ∉ s.failed
  known_mem : ∀ mem ∈ s.client.knownMems, mem ∈ s.members
  known_fresh : ∀ mem ∈ s.client.knownMems, mem ∉ s.failed
  cover : ∀ mem ∈ s.members, mem ∈ s.failed ∨ mem = s.client.primary ∨ mem ∈ s.client.knownMems
  /-- In a list without repetitions the primary is the first one or already taken out. -/
  distinct : s.members.Nodup → s.client.knownMems.Nodup ∧
    (s.client.primary ∈ s.client.knownMems → s.client.knownMems.head? = some s.client.primary)

section Runs

variable {s t : Failover} {id : Nat}

theorem Failover.tracks_initMembers {newView : List String} {client : RsmClient}
    (h : RsmClient.initMembers newView = some client) (threads : Nat → Option Waiting) :
    Failover.Tracks ⟨client, threads, newView, []⟩ := by
  unfold RsmClient.initMembers at h
  split at h
  · cases h
  · rename_i last hlast
    obtain rfl := Option.some.inj h
    have hview : newView.dropLast ++ [last] = newView := List.dropLast_append_getLast? last hlast
    have hmem : ∀ {mem}, mem ∈ newView ↔ mem ∈ newView.dropLast ∨ mem = last := by
      intro mem
      rw [← List.mem_singleton, ← List.mem_append, hview]
    refine ⟨hmem.mpr (.inr rfl), List.not_mem_nil, fun mem h => hmem.mpr (.inl h),
      fun _ _ => List.not_mem_nil, fun mem h => ?_, fun hnodup => ?_⟩
    · rcases hmem.mp h with hknown | hprimary
      · exact .inr (.inr hknown)
      · exact .inr (.inl hprimary)
    · rw [← hview, List.nodup_append] at hnodup
      exact ⟨hnodup.1, fun hknown => absurd rfl (hnodup.2.2 last hknown last (by simp))⟩

/-- Fewer failures than members leave a candidate besides the primary. -/
theorem Failover.Tracks.candidate (h : s.Tracks)
    (hfew : s.failed.length + 1 < s.members.toFinset.card) :
    ∃ mem ∈ s.client.knownMems, mem ≠ s.client.primary := by
  by_contra hnone
  have hsub : s.members.toFinset ⊆ insert s.client.primary s.failed.toFinset := by
    intro mem hmem
    rw [Finset.mem_insert, List.mem_toFinset]
    rcases h.cover mem (List.mem_toFinset.mp hmem) with hfailed | hprimary | hknown
    · exact .inr hfailed
    · exact .inl hprimary
    · by_contra hne
      exact hnone ⟨mem, hknown, fun heq => hne (.inl heq)⟩
  have hcard := (Finset.card_le_card hsub).trans (Finset.card_insert_le _ _)
  have hlength := List.toFinset_card_le s.failed
  omega

/-- The next primary is a candidate that is left. -/
theorem Failover.Tracks.failsOver (h : s.Tracks) {client : RsmClient}
    (hclient : s.client.FailsOver client) (threads : Nat → Option Waiting) :
    Failover.Tracks ⟨client, threads, s.members, s.failed ++ [s.client.primary]⟩ := by
  obtain ⟨hknown, hhead⟩ := hclient
  have hkept : ∀ {mem}, mem ∈ client.knownMems ↔
      mem ∈ s.client.knownMems ∧ mem ≠ s.client.primary := by
    intro mem
    rw [hknown, List.mem_filter, decide_eq_true_eq]
  have hprimary : client.primary ∈ client.knownMems := List.mem_of_head? hhead
  have hfresh : ∀ mem ∈ client.knownMems, mem ∉ s.failed ++ [s.client.primary] := by
    intro mem hmem
    rw [List.mem_append, List.mem_singleton, not_or]
    exact ⟨h.known_fresh mem (hkept.mp hmem).1, (hkept.mp hmem).2⟩
  refine ⟨h.known_mem _ (hkept.mp hprimary).1, hfresh _ hprimary,
    fun mem hmem => h.known_mem mem (hkept.mp hmem).1, hfresh, fun mem hmem => ?_, fun hnodup => ?_⟩
  · rw [List.mem_append, List.mem_singleton]
    by_cases heq : mem = s.client.primary
    · exact .inl (.inr heq)
    · rcases h.cover mem hmem with hfailed | hold | hmems
      · exact .inl (.inl hfailed)
      · exact absurd hold heq
      · exact .inr (.inr (hkept.mpr ⟨hmems, heq⟩))
  · exact ⟨hknown ▸ (h.distinct hnodup).1.filter _, fun _ => hhead⟩

/-- An orderly failure is survived. -/
theorem Failover.Tracks.failure (h : s.Tracks) {waiting : Waiting}
    (hwaiting : s.threads id = some waiting) (hok : s.Orderly (.failure id)) :
    ∃ client, s.client.primaryFailure = some client ∧ s.client.FailsOver client ∧
      s.step (.failure id) = some
        { s.wait id (some (.invoking client.primary)) with
          client := client
          failed := s.failed ++ [s.client.primary] } := by
  obtain ⟨htarget, hfew, hspaced⟩ := hok
  obtain ⟨client, hclient, hfails⟩ :=
    (s.client.failsOver_iff_spaced (h.candidate hfew)).mpr hspaced
  refine ⟨client, hclient, hfails, ?_⟩
  simp only [Failover.step, hwaiting, hclient, htarget waiting hwaiting]

theorem Failover.Tracks.wait (h : s.Tracks) (waiting : Option Waiting) : (s.wait id waiting).Tracks :=
  ⟨h.primary_mem, h.primary_fresh, h.known_mem, h.known_fresh, h.cover, h.distinct⟩

theorem Failover.Tracks.step (h : s.Tracks) {action : Failover.Action} (hok : s.Orderly action)
    (hstep : s.step action = some t) : t.Tracks := by
  cases action with
  | invoke id | done id | busy id | notPrimary id =>
      simp only [Failover.step] at hstep
      split at hstep
      · obtain rfl := Option.some.inj hstep
        exact h.wait _
      · cases hstep
  | failure id =>
      rcases hwaiting : s.threads id with _ | waiting
      · simp [Failover.step, hwaiting] at hstep
      · obtain ⟨client, -, hfails, hnext⟩ := h.failure hwaiting hok
        obtain rfl := Option.some.inj (hstep.symm.trans hnext)
        exact h.failsOver hfails _
  | view id newView =>
      simp only [Failover.step] at hstep
      split at hstep
      · split at hstep
        · cases hstep
        · rename_i client hclient
          obtain rfl := Option.some.inj hstep
          exact Failover.tracks_initMembers hclient _
      · cases hstep

theorem tracks_of_orderly (h : failover.Reach Failover.Orderly s) : s.Tracks := by
  refine h.invariant (P := Failover.Tracks) ?_ fun s t action htracks hok hstep =>
    htracks.step hok hstep
  rintro start ⟨view, client, hclient, rfl⟩
  exact Failover.tracks_initMembers hclient _

/-- With member lists without repetitions the primary is spaced whenever there is another
    member. -/
theorem spaced_of_distinct_members (h : failover.Reach Failover.Orderly s)
    (hnodup : s.members.Nodup) (hother : ∃ mem ∈ s.client.knownMems, mem ≠ s.client.primary) :
    Spaced s.client.primary s.client.knownMems := by
  obtain ⟨hknown, hfirst⟩ := (tracks_of_orderly h).distinct hnodup
  intro before after heq
  have hhead := hfirst (by simp [heq])
  cases before with
  | nil =>
      rw [heq, List.nil_append] at hknown hother
      cases after with
      | nil => simp at hother
      | cons next rest =>
          refine ⟨next, rest, rfl, fun hnext => ?_⟩
          rw [hnext] at hknown
          simp at hknown
  | cons first before =>
      rw [heq] at hhead hknown
      obtain rfl := Option.some.inj hhead
      simp at hknown

end Runs

/-- **The client fails over to a member that is left exactly if the primary is spaced.**  For
    every list with another member, `primary_failure` takes the primary out and the first of the
    others becomes the primary if and only if every occurrence of it has another member right
    behind it.  In a run of `invoke` calls in which every failure is such, is that of the
    current primary and leaves fewer failures than distinct members, the primary is always a
    member that has not been found failed, and the next such failure goes through. -/
theorem fails_over_iff_spaced (c : RsmClient) (s : Failover) :
    ((∃ mem ∈ c.knownMems, mem ≠ c.primary) →
      ((∃ next, c.primaryFailure = some next ∧ c.FailsOver next) ↔
        Spaced c.primary c.knownMems)) ∧
      (failover.Reach Failover.Orderly s →
        s.client.primary ∈ s.members ∧ s.client.primary ∉ s.failed ∧
          ∀ id, s.threads id ≠ none → s.Orderly (.failure id) →
            ∃ t, s.step (.failure id) = some t ∧ t.members = s.members ∧
              t.failed = s.failed ++ [s.client.primary] ∧ t.client.primary ∈ t.members ∧
              t.client.primary ∉ t.failed) := by
  refine ⟨c.failsOver_iff_spaced, fun hs => ?_⟩
  have htracks := tracks_of_orderly hs
  refine ⟨htracks.primary_mem, htracks.primary_fresh, fun id hid hok => ?_⟩
  obtain ⟨waiting, hwaiting⟩ := Option.ne_none_iff_exists'.mp hid
  obtain ⟨client, -, hfails, hnext⟩ := htracks.failure hwaiting hok
  have hafter := htracks.failsOver hfails
    (Function.update s.threads id (some (.invoking client.primary)))
  exact ⟨_, hnext, rfl, rfl, hafter.primary_mem, hafter.primary_fresh⟩

/-- The last of three members fails and then the first one. -/
theorem fails_over_iff_spaced_twice :
    ∃ s, failover.Reach Failover.Orderly s ∧ s.members = ["a", "b", "c"] ∧ s.failed = ["c"] ∧
      s.client.primary ∉ s.failed ∧
      ∃ t, s.step (.failure 1) = some t ∧ t.failed = ["c", "a"] ∧
        t.client.primary ∈ t.members ∧ t.client.primary ∉ t.failed := by
  obtain ⟨s, hs, hview⟩ : ∃ s, failover.Reach Failover.Orderly s ∧
      (s.client, s.threads 1, s.members, s.failed) =
        (⟨"a", ["a", "b"]⟩, some (.invoking "a"), ["a", "b", "c"], ["c"]) :=
    System.Reach.of_exec (fun s action => decide (s.Orderly action)) [.invoke 1, .failure 1]
      ⟨["a", "b", "c"], _, rfl, rfl⟩ (fun _ _ h => of_decide_eq_true h) (by decide +kernel)
  simp only [Prod.mk.injEq] at hview
  obtain ⟨hclient, hthread, hmembers, hfailed⟩ := hview
  obtain ⟨-, hfresh, hnext⟩ := (fails_over_iff_spaced s.client s).2 hs
  have hok : s.Orderly (.failure 1) := by
    refine ⟨?_, ?_, ?_⟩
    · rw [hthread, hclient]
      decide
    · rw [hfailed, hmembers]
      decide
    · rw [hclient]
      decide
  obtain ⟨t, hstep, hmem, hfailed', hprimary⟩ := hnext 1 (by rw [hthread]; exact nofun) hok
  rw [hfailed, hclient] at hfailed'
  exact ⟨s, hs, hmembers, hfailed, hfresh, t, hstep, hfailed', hprimary⟩

/-- The member list `b`, `a`, `a` makes `a` the primary and leaves `b`, `a`.  When `a` fails, its
    other occurrence is the last element: the loop runs off the end. -/
theorem failover_runs_off_the_end :
    RsmClient.initMembers ["b", "a", "a"] = some ⟨"a", ["b", "a"]⟩ ∧
      ¬ ∀ c : RsmClient, (∃ mem ∈ c.knownMems, mem ≠ c.primary) →
        ∃ next, c.primaryFailure = some next ∧ c.FailsOver next := by
  refine ⟨rfl, fun hclaim => ?_⟩
  obtain ⟨next, hnext, -⟩ := hclaim ⟨"a", ["b", "a"]⟩ (by decide)
  have hnone : RsmClient.primaryFailure ⟨"a", ["b", "a"]⟩ = none := by decide
  rw [hnone] at hnext
  cases hnext

end DistributedLab.Rsm
