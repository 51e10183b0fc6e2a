import DistributedLab.PaxosPromise
import DistributedLab.RsmNode

/-!
# Restarting over a log

A node that restarts over a log with decided instances must not serve in an older
view than the last one it has logged.  Only the recovery thread clears
`inviewchange`, and only after it has found the node to be a member of
`vid_commit`, so the question is which views can become `vid_commit`.  Instances
that Paxos decides are above `instance_h`, which the replay has put at the last
logged view.  Two other sources are not tied to the log: the constructor commits
view 1 when the node is given itself as `_first`, and `join` commits the view that
the log of the answering node ends with.
-/

namespace DistributedLab.Rsm

open Paxos Config Transition

variable {σ : Type}

/-! ### Runs of a node -/

/-- What can happen on a node: calls on its acceptor, upcalls, steps of the recovery thread,
    the handler that changes the synchronisation state, and executed requests. -/
inductive Node.Action (σ : Type) where
  | paxos (op : Op)
  | paxosCommit (upcall : Nat × String)
  | commitChange (vid : Nat)
  | recovery (wakeup : Wakeup σ)
  | transferdonereq (m : String) (vid : Nat)
  | execute (svc : σ)

def Node.step (n : Node σ) : Node.Action σ → Option (Node σ)
  | .paxos op => n.paxos op
  | .paxosCommit upcall => if upcall ∈ n.upcalls then some (n.paxosCommit upcall) else none
  | .commitChange vid => if vid ∈ n.changes then n.commitChange vid else none
  | .recovery wakeup => n.recovery wakeup
  | .transferdonereq m vid => n.transferdonereq m vid
  | .execute svc => some { n with svc := svc }

/-- The runs of a node from its construction over a log file. -/
def restarted (σ : Type) (first me : String) (records : List Record) :
    System (Node σ) (Node.Action σ) where
  init := fun n => ∃ (svc : σ) (junk : Nat), Node.new first me svc (logText records) junk = some n
  step := Node.step

/-- An answer to `joinreq` carries the dump of another node's log. -/
def Node.Action.JoinsLog : Node.Action σ → Prop
  | .recovery (.joinreq log _) =>
      ∃ other : List Record, (∀ record ∈ other, record.WF) ∧ log = logDump (logText other)
  | _ => True

/-- The log in an answer to `joinreq` has decided instance `k`. -/
def Node.Action.JoinsAhead (k : Nat) : Node.Action σ → Prop
  | .recovery (.joinreq log _) =>
      ∃ other : List Record, (∀ record ∈ other, record.WF) ∧ log = logDump (logText other) ∧
        ∃ inst ∈ lastDone other, k ≤ inst
  | _ => True

/-! ### The invariant -/

/-- Past the membership test: the recovery thread synchronises or has done so. -/
def Pc.entered : Pc → Bool
  | .quiescing | .awaiting | .transferring _ | .finishing _ | .resting => true
  | _ => false

/-- Every view that the layers hold or will pass on is at least `k`, except that the RSM may
    have none yet. -/
structure Node.Current (k : Nat) (n : Node σ) : Prop where
  decided : k ≤ n.acc.instanceH
  zero : n.acc.values 0 = none
  upcalls : ∀ upcall ∈ n.upcalls, k ≤ upcall.1
  myvid : k ≤ n.myvid
  changes : ∀ vid ∈ n.changes, k ≤ vid
  committed : n.vidCommit = 0 ∨ k ≤ n.vidCommit
  entered : n.pc.entered = true → n.vidCommit ≠ 0
  serving : n.inviewchange = false → n.vidCommit ≠ 0

section Preservation

variable {k : Nat} {n : Node σ}

theorem Node.Current.loopHead (h : n.Current k) : n.loopHead.Current k := by
  unfold Node.loopHead
  by_cases hmember : ismember n.acc n.myaddr n.vidCommit = false
  · rw [if_pos hmember]
    exact { h with entered := nofun }
  · -- a member of the committed view, which is not the empty view 0
    have hvid : n.vidCommit ≠ 0 := by
      intro hzero
      rw [hzero, ismember_zero h.zero] at hmember
      exact hmember rfl
    rw [if_neg hmember]
    split
    · exact { h with entered := fun _ => hvid }
    · exact { h with entered := fun _ => hvid }

theorem Node.Current.synced (h : n.Current k) (hentered : n.pc.entered = true) (r : Bool) :
    (n.synced r).Current k := by
  have hvid := h.entered hentered
  unfold Node.synced
  split
  · exact h.loopHead
  · split
    · exact { h with entered := fun _ => hvid, serving := fun _ => hvid }
    · exact h.loopHead

theorem Node.Current.awaitBackups (h : n.Current k) (hentered : n.pc.entered = true) :
    n.awaitBackups.Current k := by
  unfold Node.awaitBackups
  split
  · exact { h with entered := fun _ => h.entered hentered }
  · have hsame : ({ n with insync := false } : Node σ).Current k := { h with }
    exact hsame.synced hentered true

theorem Node.Current.commitChangeWo (h : n.Current k) (hpos : 1 ≤ k) {vid : Nat} (hvid : k ≤ vid)
    {next : Node σ} (hcommit : n.commitChangeWo vid = some next) : next.Current k := by
  rw [Node.commitChangeWo_eq] at hcommit
  split at hcommit
  · cases hcommit
    exact h
  · obtain ⟨primary, -, rfl⟩ := Option.map_eq_some_iff.mp hcommit
    exact { h with
      committed := .inr hvid
      entered := fun _ => Nat.ne_of_gt (hpos.trans hvid)
      serving := nofun }

theorem Node.Current.reconstruct (h : n.Current k) : n.reconstruct.Current k := by
  rw [Node.reconstruct_eq]
  split
  · exact { h with myvid := h.decided }
  · exact h

/-- Replaying records keeps instance 0 undecided. -/
theorem values_zero_foldl_replay {records : List Record} (hwf : ∀ record ∈ records, record.WF)
    {a : Acceptor} (h : a.values 0 = none) :
    (records.foldl Acceptor.replay a).values 0 = none := by
  induction records generalizing a with
  | nil => exact h
  | cons record records ih =>
      refine ih (fun r hr => hwf r (List.mem_cons_of_mem _ hr)) ?_
      have hrecord := hwf record List.mem_cons_self
      cases record with
      | done inst v =>
          have hne : (0 : Nat) ≠ inst := by have := hrecord.1; omega
          simpa [Acceptor.replay, Function.update_of_ne hne] using h
      | propseen nH => exact h
      | accepted m v => exact h

/-- `join` has its answer, a log that has decided instance `k`. -/
theorem Node.Current.joined (h : n.Current k) (hpos : 1 ≤ k) {other : List Record}
    (hwf : ∀ record ∈ other, record.WF) {inst : Nat} (hdone : inst ∈ lastDone other)
    (hinst : k ≤ inst) {junk : Nat} {next : Node σ}
    (hjoined : n.joined (logDump (logText other)) junk = some next) : next.Current k := by
  unfold Node.joined Node.restore at hjoined
  rw [logDump_logText hwf, Acceptor.restore, Acceptor.logread_logText hwf rfl,
    Option.map_some, Option.bind_some] at hjoined
  obtain ⟨after, hcommit, rfl⟩ := Option.map_eq_some_iff.mp hjoined
  have hrestored := Node.Current.reconstruct (k := k)
    (n := { n with acc := other.foldl Acceptor.replay { n.acc with file := logText other } })
    { h with
      decided := by
        rw [instanceH_foldl_replay, Option.mem_def.mp hdone]
        exact hinst
      zero := values_zero_foldl_replay hwf h.zero }
  exact (hrestored.commitChangeWo hpos hrestored.myvid hcommit).loopHead

/-- No call on the acceptor moves `instance_h` back or decides instance 0. -/
theorem perform_instanceH {a next : Acceptor} {op : Op} (h : a.perform op = some next) :
    a.instanceH ≤ next.instanceH ∧ (a.values 0 = none → next.values 0 = none) := by
  have hcommitted : ∀ inst value, a.instanceH < inst →
      a.instanceH ≤ (a.committed inst value).instanceH ∧
        (a.values 0 = none → (a.committed inst value).values 0 = none) := by
    intro inst value hlt
    have hne : (0 : Nat) ≠ inst := by omega
    refine ⟨Nat.le_of_lt hlt, fun hzero => ?_⟩
    simpa [Acceptor.committed, Acceptor.append, Function.update_of_ne hne] using hzero
  cases op with
  | request req =>
      obtain ⟨⟨after, res⟩, hhandle, rfl⟩ := Option.map_eq_some_iff.mp h
      cases Acceptor.handle_outcome hhandle with
      | committed hinst hv => exact hcommitted _ _ (by omega)
      | _ => exact ⟨le_refl _, id⟩
  | commit inst value =>
      cases h
      rcases Nat.lt_or_ge a.instanceH inst with hlt | hge
      · rw [Acceptor.commit, Acceptor.commitWo_of_lt hlt]
        exact hcommitted inst value hlt
      · rw [Acceptor.commit, Acceptor.commitWo_of_le hge]
        exact ⟨le_refl _, id⟩

theorem Node.Current.paxos (h : n.Current k) {op : Op} {next : Node σ}
    (hpaxos : n.paxos op = some next) : next.Current k := by
  obtain ⟨acc, hperform, rfl⟩ := Option.map_eq_some_iff.mp hpaxos
  obtain ⟨hle, hzero⟩ := perform_instanceH hperform
  have hdecided : k ≤ acc.instanceH := h.decided.trans hle
  split
  · refine { h with decided := hdecided, zero := hzero h.zero, upcalls := ?_ }
    exact List.forall_mem_append.mpr ⟨h.upcalls, List.forall_mem_singleton.mpr hdecided⟩
  · exact { h with decided := hdecided, zero := hzero h.zero }

theorem Node.Current.paxosCommit (h : n.Current k) {upcall : Nat × String}
    (hmem : upcall ∈ n.upcalls) : (n.paxosCommit upcall).Current k where
  decided := h.decided
  zero := h.zero
  upcalls := fun other hother => h.upcalls other (List.mem_of_mem_erase hother)
  myvid := h.upcalls upcall hmem
  changes := List.forall_mem_append.mpr
    ⟨h.changes, List.forall_mem_singleton.mpr (h.upcalls upcall hmem)⟩
  committed := h.committed
  entered := h.entered
  serving := h.serving

theorem Node.Current.commitChange (h : n.Current k) (hpos : 1 ≤ k) {vid : Nat}
    (hmem : vid ∈ n.changes) {next : Node σ} (hcommit : n.commitChange vid = some next) :
    next.Current k := by
  have hrest : ({ n with changes := n.changes.erase vid } : Node σ).Current k :=
    { h with changes := fun other hother => h.changes other (List.mem_of_mem_erase hother) }
  exact hrest.commitChangeWo hpos (h.changes vid hmem) hcommit

theorem Node.Current.recovery (h : n.Current k) (hpos : 1 ≤ k) {wakeup : Wakeup σ} {next : Node σ}
    (hjoins : (Node.Action.recovery wakeup).JoinsAhead k) (hstep : n.recovery wakeup = some next) :
    next.Current k := by
  cases Node.recovery_cases hstep with
  | looped hpc => exact h.loopHead
  | awaited hpc => exact h.awaitBackups (by rw [hpc]; rfl)
  | began hpc =>
      have hbegun : ({ n with
          insync := true
          backups := (getView n.acc n.vidInsync).erase n.myaddr } : Node σ).Current k :=
        { h with }
      exact hbegun.awaitBackups (by rw [hpc]; rfl)
  | joined hpc hjoined =>
      obtain ⟨other, hwf, rfl, inst, hdone, hinst⟩ := hjoins
      exact h.joined hpos hwf hdone hinst hjoined
  | transferred hpc =>
      exact { h with entered := fun _ => h.entered (by rw [hpc]; rfl) }
  | finished hpc => exact h.synced (by rw [hpc]; rfl) _
  | refused hpc => exact { h with entered := nofun }
  | failed hpc => exact h.synced (by rcases hpc with hpc | hpc <;> rw [hpc] <;> rfl) false

theorem Node.Current.step (h : n.Current k) (hpos : 1 ≤ k) {action : Node.Action σ}
    {next : Node σ} (hjoins : action.JoinsAhead k) (hstep : n.step action = some next) :
    next.Current k := by
  cases action with
  | paxos op => exact h.paxos hstep
  | paxosCommit upcall =>
      by_cases hmem : upcall ∈ n.upcalls
      · rw [Node.step, if_pos hmem, Option.some.injEq] at hstep
        exact hstep ▸ h.paxosCommit hmem
      · rw [Node.step, if_neg hmem] at hstep
        cases hstep
  | commitChange vid =>
      by_cases hmem : vid ∈ n.changes
      · rw [Node.step, if_pos hmem] at hstep
        exact h.commitChange hpos hmem hstep
      · rw [Node.step, if_neg hmem] at hstep
        cases hstep
  | recovery wakeup => exact h.recovery hpos hjoins hstep
  | transferdonereq m vid =>
      simp only [Node.step, Node.transferdonereq] at hstep
      split at hstep
      · cases hstep
      · cases hstep
        exact { h with }
  | execute svc =>
      cases hstep
      exact { h with }

end Preservation

/-! ### The constructor -/

/-- The instances of the `done` records, in the order of the log. -/
def doneInstances (records : List Record) : List Nat :=
  records.filterMap fun record =>
    match record with
    | .done inst _ => some inst
    | _ => none

theorem lastDone_eq_getLast? (records : List Record) :
    lastDone records = (doneInstances records).getLast? := by
  induction records using List.reverseRecOn with
  | nil => rfl
  | append_singleton records record ih =>
      have happend : doneInstances (records ++ [record]) =
          doneInstances records ++ doneInstances [record] := List.filterMap_append
      rw [lastDone_append, happend]
      cases record with
      | done inst v => exact List.getLast?_concat.symm
      | propseen nH => exact ih.trans (congrArg List.getLast? (List.append_nil _).symm)
      | accepted m v => exact ih.trans (congrArg List.getLast? (List.append_nil _).symm)

/-- In a log whose decisions ascend, the last decision is the highest. -/
theorem le_lastDone {records : List Record} {k : Nat}
    (hascending : (doneInstances records).Pairwise (· < ·)) (hk : k ∈ doneInstances records) :
    k ≤ (lastDone records).getD 0 := by
  rw [lastDone_eq_getLast?]
  generalize doneInstances records = insts at hascending hk
  induction insts using List.reverseRecOn with
  | nil => cases hk
  | append_singleton insts inst ih =>
      rw [List.getLast?_concat, Option.getD_some]
      rcases List.mem_append.mp hk with hk | hk
      · exact Nat.le_of_lt ((List.pairwise_append.mp hascending).2.2 k hk inst (by simp))
      · exact Nat.le_of_eq (List.mem_singleton.mp hk)

section Restart

variable {first me : String} {records : List Record} {k : Nat}

/-- The node before `commit_change(1)`.  The log has decided `k`, so the acceptor logs no
    first view. -/
theorem Node.current_boot (hwf : ∀ record ∈ records, record.WF) (hpos : 1 ≤ k)
    (hk : k ≤ (lastDone records).getD 0) {svc : σ} {junk : Nat} {n : Node σ}
    (hboot : Node.boot first me svc (logText records) junk = some n) :
    n.Current k ∧ n.acc = { replayed me records with file := logText records } ∧
      n.primary = first ∧ n.vidCommit = 0 := by
  have hdecided : k ≤ (replayed me records).instanceH := by
    rw [replayed, instanceH_foldl_replay]
    exact hk
  have hlogged : ¬ ((replayed me records).instanceH = 0 ∧ (me == first) = true) :=
    fun h => absurd h.1 (by omega)
  unfold Node.boot at hboot
  rw [Acceptor.new_logText hwf, Acceptor.logFirst, if_neg hlogged, Option.map_some,
    Option.some.injEq, Node.reconstruct_eq, if_pos (Nat.lt_of_lt_of_le hpos hdecided)] at hboot
  subst hboot
  refine ⟨?_, rfl, rfl, rfl⟩
  constructor
  · exact hdecided
  · exact values_zero_foldl_replay hwf rfl
  · intro upcall hmem
    cases hmem
  · exact hdecided
  · intro vid hmem
    cases hmem
  · exact .inl rfl
  · intro hentered
    cases hentered
  · intro hserving
    cases hserving

/-- A constructed node, unless it commits view 1 although its log has decided a later one. -/
theorem Node.current_new (hwf : ∀ record ∈ records, record.WF) (hpos : 1 ≤ k)
    (hk : k ≤ (lastDone records).getD 0)
    (hstart : first ≠ me ∨ k ≤ 1 ∨ me ∉ getView (replayed me records) 1) {svc : σ} {junk : Nat}
    {n : Node σ} (hnew : Node.new first me svc (logText records) junk = some n) : n.Current k := by
  obtain ⟨booted, hboot, hnew⟩ := Option.bind_eq_some_iff.mp hnew
  obtain ⟨hcurrent, hacc, hprimary, hvid⟩ := current_boot hwf hpos hk hboot
  by_cases hfirst : first = me
  · rw [if_pos hfirst, Node.commitChange] at hnew
    by_cases hone : k ≤ 1
    · have hrest : ({ booted with changes := booted.changes.erase 1 } : Node σ).Current k :=
        { hcurrent with
          changes := fun vid hmem => hcurrent.changes vid (List.mem_of_mem_erase hmem) }
      exact hrest.commitChangeWo hpos hone hnew
    · -- not a member of view 1: `set_primary` finds no previous view and aborts
      have hnot : me ∉ getView booted.acc 1 := by
        rw [hacc]
        exact (hstart.resolve_left (fun hne => hne hfirst)).resolve_left hone
      have hzero : getView booted.acc (1 - 1) = [] := by
        rw [getView, Acceptor.value, hcurrent.zero]
        exact members_empty
      have hset : setPrimary (getView booted.acc) booted.primary 1 = none := by
        rw [setPrimary, hprimary, hfirst, hzero]
        simp [hnot]
      rw [Node.commitChangeWo_eq, if_neg (by rw [hvid]; decide), hset] at hnew
      cases hnew
  · rw [if_neg hfirst, Option.some.injEq] at hnew
    exact hnew ▸ hcurrent

/-- **No serving in an outdated view.**  A node restarted over a log whose highest decision
    is `k` does not serve in an older view, unless it commits view 1 as its own `_first` or
    joins with a log that has not decided `k`. -/
theorem no_outdated_view (hwf : ∀ record ∈ records, record.WF)
    (hascending : (doneInstances records).Pairwise (· < ·))
    (hk : (doneInstances records).max? = some k)
    (hstart : first ≠ me ∨ k ≤ 1 ∨ me ∉ getView (replayed me records) 1) {n : Node σ}
    (h : (restarted σ first me records).Reach (fun _ action => action.JoinsAhead k) n) :
    ¬ (n.inviewchange = false ∧ n.vidCommit < k) := by
  have hmem : k ∈ doneInstances records := List.max?_mem hk
  have hpos : 1 ≤ k := by
    obtain ⟨record, hrecord, hdone⟩ := List.mem_filterMap.mp hmem
    have hrecordwf := hwf record hrecord
    cases record with
    | done inst v =>
        cases hdone
        exact hrecordwf.1
    | propseen nH => cases hdone
    | accepted m v => cases hdone
  have hcurrent : n.Current k := by
    refine h.invariant (P := fun n => n.Current k) ?_ ?_
    · rintro start ⟨svc, junk, hnew⟩
      exact Node.current_new hwf hpos (le_lastDone hascending hmem) hstart hnew
    · intro state next action hstate hjoins hstep
      exact hstate.step hpos hjoins hstep
  rintro ⟨hserving, hlt⟩
  rcases hcurrent.committed with hzero | hle
  · exact hcurrent.serving hserving hzero
  · omega

end Restart

/-! ### Concrete runs -/

/-- The log of node `a`, the first of two nodes. -/
def twoViewsLog : List Record := [.done 1 "a", .done 2 "a b "]

/-- Node `a` comes back with `b` as its `_first` argument: it joins, synchronises with `b`
    and serves in view 2. -/
def rejoinThroughOther : List (Node.Action Unit) :=
  [.recovery .go, .recovery (.joinreq (logText twoViewsLog) 0),
    .recovery (.transferreq ⟨0, 0⟩ none), .recovery .transferdonereq]

/-- Node `a` comes back as its own `_first`: it commits view 1, in which it is alone. -/
def restartAsFirst : List (Node.Action Unit) := [.recovery .go, .recovery .invokeMutex]

/-- Accept only answers to `joinreq` that carry `twoViewsLog`. -/
def joinsTwoViews : Node Unit → Node.Action Unit → Bool
  | _, .recovery (.joinreq log _) => log == logText twoViewsLog
  | _, _ => true

theorem joinsAhead_of_joinsTwoViews (n : Node Unit) (action : Node.Action Unit)
    (h : joinsTwoViews n action = true) : action.JoinsAhead 2 := by
  match action with
  | .recovery (.joinreq log junk) =>
      have hwf : ∀ record ∈ twoViewsLog, record.WF := by decide
      refine ⟨twoViewsLog, hwf, ?_, 2, rfl, le_refl 2⟩
      rw [logDump_logText hwf]
      exact beq_iff_eq.mp h
  | .recovery .go => trivial
  | .recovery .invokeMutex => trivial
  | .recovery (.transferreq _ _) => trivial
  | .recovery .transferdonereq => trivial
  | .recovery .failure => trivial
  | .paxos _ => trivial
  | .paxosCommit _ => trivial
  | .commitChange _ => trivial
  | .transferdonereq _ _ => trivial
  | .execute _ => trivial

theorem no_outdated_view_rejoined :
    ∃ n, (restarted Unit "b" "a" twoViewsLog).Reach (fun _ action => action.JoinsAhead 2) n ∧
      n.inviewchange = false ∧ ¬ (n.inviewchange = false ∧ n.vidCommit < 2) := by
  obtain ⟨n, hreach, hview⟩ : ∃ n, (restarted Unit "b" "a" twoViewsLog).Reach
      (fun _ action => action.JoinsAhead 2) n ∧ (n.inviewchange, n.vidCommit) = (false, 2) :=
    System.Reach.of_start_exec joinsTwoViews rejoinThroughOther
      (fun first hfirst => ⟨(), 0, hfirst⟩) joinsAhead_of_joinsTwoViews (by decide +kernel)
  exact ⟨n, hreach, (Prod.mk.inj hview).1, no_outdated_view (by decide) (by decide) (by decide)
    (.inl (by decide)) hreach⟩

/-- Restarted as its own `_first` over a log with two views, node `a` serves in view 1. -/
theorem restart_as_first_serves_view_one :
    ¬ ∀ (first me : String) (records : List Record) (k : Nat),
      (∀ record ∈ records, record.WF) → (doneInstances records).Pairwise (· < ·) →
      (doneInstances records).max? = some k →
      ∀ n, (restarted Unit first me records).Reach (fun _ action => action.JoinsLog) n →
        ¬ (n.inviewchange = false ∧ n.vidCommit < k) := by
  intro hclaim
  obtain ⟨n, hreach, hview⟩ : ∃ n, (restarted Unit "a" "a" twoViewsLog).Reach
      (fun _ action => action.JoinsLog) n ∧ (n.inviewchange, n.vidCommit) = (false, 1) :=
    System.Reach.of_start_exec
      (fun _ action => action matches .recovery .go | .recovery .invokeMutex)
      restartAsFirst (fun first hfirst => ⟨(), 0, hfirst⟩)
      (by
        intro state action h
        split at h
        · trivial
        · trivial
        · cases h)
      (by decide +kernel)
  obtain ⟨hserving, hvid⟩ := Prod.mk.inj hview
  exact hclaim "a" "a" twoViewsLog 2 (by decide) (by decide) (by decide) n hreach
    ⟨hserving, by omega⟩

end DistributedLab.Rsm
