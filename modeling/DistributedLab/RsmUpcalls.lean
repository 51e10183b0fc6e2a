import DistributedLab.RsmRestart

/-!
# Config behind the acceptor

`commit_wo` decides an instance under `pxs_mutex`, drops the mutex and calls
`config::paxos_commit`, which takes `cfg_mutex`.  Between the two the decided
instance is an upcall on its way: two threads that decide one instance after the
other may enter `paxos_commit` in either order.

`paxos_commit` stores the instance it is given without comparing it with `myvid`,
where `rsm::commit_change_wo`, one layer up, ignores a view that is not newer.
What config holds is always one of the decided views; it is the latest one, and
`myvid` only grows, as long as each upcall is for an instance above `myvid`.
-/

namespace DistributedLab.Rsm

open Paxos Config Transition

variable {σ : Type}

/-! ### The threads of one node -/

inductive Node.ConfigAction where
  /-- A call on the acceptor. -/
  | paxos (op : Op)
  /-- A thread that has decided an instance runs `paxos_commit`. -/
  | paxosCommit (upcall : Nat × String)

def Node.configStep (n : Node σ) : Node.ConfigAction → Option (Node σ)
  | .paxos op => n.paxos op
  | .paxosCommit upcall => if upcall ∈ n.upcalls then some (n.paxosCommit upcall) else none

/-- The acceptor and the config module of one node, from their construction over a log. -/
def configured (σ : Type) (first me : String) : System (Node σ) Node.ConfigAction where
  init := fun n => ∃ (svc : σ) (records : List Record) (junk : Nat),
    (∀ record ∈ records, record.WF) ∧ Node.boot first me svc (logText records) junk = some n
  step := Node.configStep

/-- `paxos_commit` is entered for an instance above `myvid`. -/
def Node.Newer (n : Node σ) : Node.ConfigAction → Prop
  | .paxosCommit upcall => n.myvid < upcall.1
  | .paxos _ => True

instance (n : Node σ) : (action : Node.ConfigAction) → Decidable (n.Newer action)
  | .paxosCommit upcall => inferInstanceAs (Decidable (n.myvid < upcall.1))
  | .paxos _ => inferInstanceAs (Decidable True)

/-- Config follows the acceptor of `n`, now and in the rest of a run whose steps meet `ok`. -/
structure Node.FollowsAcceptor (first me : String) (ok : Node σ → Node.ConfigAction → Prop)
    (n : Node σ) : Prop where
  mems : n.mems = members (n.acc.value n.myvid)
  caughtUp : n.upcalls = [] → n.myvid = n.acc.instanceH
  grows : ∀ later, (configured σ first me).Steps ok n later → n.myvid ≤ later.myvid

/-! ### The invariant -/

/-- What holds in every interleaving: config holds a decided view, and so does each upcall. -/
structure Node.Mirrors (n : Node σ) : Prop where
  upcalls : ∀ upcall ∈ n.upcalls,
    upcall.1 ≤ n.acc.instanceH ∧ n.acc.values upcall.1 = some upcall.2
  myvid : n.myvid ≤ n.acc.instanceH
  mems : n.mems = getView n.acc n.myvid

/-- The last decided instance has reached config or is on its way. -/
def Node.Informed (n : Node σ) : Prop :=
  n.myvid = n.acc.instanceH ∨ ∃ v, (n.acc.instanceH, v) ∈ n.upcalls

section Preservation

variable {n : Node σ}

/-- A decision leaves the values below it alone. -/
theorem values_committed_of_le {a : Acceptor} {inst : Nat} {v : String} (hlt : a.instanceH < inst)
    {i : Nat} (hi : i ≤ a.instanceH) : (a.committed inst v).values i = a.values i :=
  Function.update_of_ne (by omega) _ _

theorem getView_committed_of_le {a : Acceptor} {inst : Nat} {v : String}
    (hlt : a.instanceH < inst) {i : Nat} (hi : i ≤ a.instanceH) :
    getView (a.committed inst v) i = getView a i := by
  rw [getView, getView, Acceptor.value, Acceptor.value, values_committed_of_le hlt hi]

theorem value_committed (a : Acceptor) (inst : Nat) (v : String) :
    (a.committed inst v).value inst = v := by
  simp [Acceptor.value, Acceptor.committed, Acceptor.append]

/-- A call on the acceptor leaves the history alone, or decides one instance and hands it to
    an upcall. -/
theorem Node.paxos_cases {op : Op} {next : Node σ} (h : n.paxos op = some next) :
    (∃ acc : Acceptor, acc.instanceH = n.acc.instanceH ∧ acc.values = n.acc.values ∧
      next = { n with acc := acc }) ∨
    ∃ inst v, n.acc.instanceH < inst ∧
      next = { n with acc := n.acc.committed inst v, upcalls := n.upcalls ++ [(inst, v)] } := by
  obtain ⟨acc, hperform, rfl⟩ := Option.map_eq_some_iff.mp h
  cases Acceptor.progress_perform hperform with
  | kept records hundecided hlength hfile hinst hvalues hme =>
      rw [if_neg (by omega)]
      exact .inl ⟨acc, hinst, hvalues, rfl⟩
  | decided inst v hlt hnext =>
      subst hnext
      have hinst : (n.acc.committed inst v).instanceH = inst := rfl
      rw [hinst, if_pos hlt, ViewState.decided, hinst, value_committed]
      exact .inr ⟨inst, v, hlt, rfl⟩

theorem Node.Mirrors.paxos {op : Op} {next : Node σ} (h : n.Mirrors)
    (hstep : n.paxos op = some next) : next.Mirrors := by
  rcases Node.paxos_cases hstep with ⟨acc, hinst, hvalues, rfl⟩ | ⟨inst, v, hlt, rfl⟩
  · refine ⟨fun upcall hupcall => ?_, hinst ▸ h.myvid, ?_⟩
    · show upcall.1 ≤ acc.instanceH ∧ acc.values upcall.1 = some upcall.2
      rw [hinst, hvalues]
      exact h.upcalls upcall hupcall
    · show n.mems = getView acc n.myvid
      rw [h.mems, getView, getView, Acceptor.value, Acceptor.value, hvalues]
  · have hle : ∀ {i}, i ≤ n.acc.instanceH → i ≤ inst := fun hi => by omega
    refine ⟨fun upcall hupcall => ?_, hle h.myvid, ?_⟩
    · rcases List.mem_append.mp hupcall with hold | hnew
      · obtain ⟨hinst, hvalue⟩ := h.upcalls upcall hold
        exact ⟨hle hinst, (values_committed_of_le hlt hinst).trans hvalue⟩
      · rw [List.mem_singleton.mp hnew]
        exact ⟨Nat.le_refl _, Function.update_self ..⟩
    · exact h.mems.trans (getView_committed_of_le hlt h.myvid).symm

theorem Node.Mirrors.paxosCommit {upcall : Nat × String} (h : n.Mirrors)
    (hmem : upcall ∈ n.upcalls) : (n.paxosCommit upcall).Mirrors where
  upcalls := fun other hother => h.upcalls other (List.mem_of_mem_erase hother)
  myvid := (h.upcalls upcall hmem).1
  mems := by
    show members upcall.2 = getView n.acc upcall.1
    rw [getView, Acceptor.value, (h.upcalls upcall hmem).2, Option.getD_some]

theorem Node.Informed.paxos {op : Op} {next : Node σ} (h : n.Informed)
    (hstep : n.paxos op = some next) : next.Informed := by
  rcases Node.paxos_cases hstep with ⟨acc, hinst, -, rfl⟩ | ⟨inst, v, hlt, rfl⟩
  · show n.myvid = acc.instanceH ∨ ∃ v, (acc.instanceH, v) ∈ n.upcalls
    rw [hinst]
    exact h
  · exact .inr ⟨v, List.mem_append_right _ List.mem_cons_self⟩

/-- An upcall above `myvid` is the last one, or the last one is still on its way. -/
theorem Node.Informed.paxosCommit {upcall : Nat × String} (h : n.Informed) (hmirrors : n.Mirrors)
    (hmem : upcall ∈ n.upcalls) (hnewer : n.myvid < upcall.1) :
    (n.paxosCommit upcall).Informed := by
  have hle := (hmirrors.upcalls upcall hmem).1
  by_cases hlast : upcall.1 = n.acc.instanceH
  · exact .inl hlast
  · obtain ⟨v, hv⟩ := h.resolve_left fun heq => by omega
    refine .inr ⟨v, (List.mem_erase_of_ne fun heq => hlast ?_).mpr hv⟩
    rw [← heq]
    rfl

theorem Node.mirrors_boot {first me : String} {svc : σ} {records : List Record} {junk : Nat}
    (hwf : ∀ record ∈ records, record.WF)
    (hboot : Node.boot first me svc (logText records) junk = some n) :
    n.Mirrors ∧ n.Informed := by
  obtain ⟨acc, hacc, rfl⟩ := Option.map_eq_some_iff.mp hboot
  have hzero : acc.values 0 = none := by
    rw [Acceptor.new_logText hwf, Option.some.injEq] at hacc
    subst hacc
    have hread : (replayed me records).values 0 = none := values_zero_foldl_replay hwf rfl
    rw [Acceptor.logFirst]
    split
    · simpa [Acceptor.append] using hread
    · exact hread
  rw [Node.reconstruct_eq]
  split
  · exact ⟨⟨by simp, Nat.le_refl _, rfl⟩, .inl rfl⟩
  · rename_i hnone
    have hinst : acc.instanceH = 0 := Nat.eq_zero_of_not_pos hnone
    refine ⟨⟨by simp, Nat.zero_le _, ?_⟩, .inl hinst.symm⟩
    simp [getView, Acceptor.value, hzero]

end Preservation

section Runs

variable {first me : String} {n : Node σ}

theorem Node.Mirrors.step {next : Node σ} {action : Node.ConfigAction} (h : n.Mirrors)
    (hstep : n.configStep action = some next) : next.Mirrors := by
  cases action with
  | paxos op => exact h.paxos hstep
  | paxosCommit upcall =>
      simp only [Node.configStep, Option.ite_none_right_eq_some, Option.some.injEq] at hstep
      obtain ⟨hmem, rfl⟩ := hstep
      exact h.paxosCommit hmem

theorem Node.Informed.step {next : Node σ} {action : Node.ConfigAction} (h : n.Informed)
    (hmirrors : n.Mirrors) (hnewer : n.Newer action)
    (hstep : n.configStep action = some next) : next.Informed := by
  cases action with
  | paxos op => exact h.paxos hstep
  | paxosCommit upcall =>
      simp only [Node.configStep, Option.ite_none_right_eq_some, Option.some.injEq] at hstep
      obtain ⟨hmem, rfl⟩ := hstep
      exact h.paxosCommit hmirrors hmem hnewer

theorem Node.myvid_le_of_configStep {next : Node σ} {action : Node.ConfigAction}
    (hnewer : n.Newer action) (hstep : n.configStep action = some next) :
    n.myvid ≤ next.myvid := by
  cases action with
  | paxos op =>
      obtain ⟨acc, -, rfl⟩ := Option.map_eq_some_iff.mp hstep
      split <;> exact Nat.le_refl _
  | paxosCommit upcall =>
      simp only [Node.configStep, Option.ite_none_right_eq_some, Option.some.injEq] at hstep
      obtain ⟨-, rfl⟩ := hstep
      exact Nat.le_of_lt hnewer

theorem Node.myvid_le_of_steps {later : Node σ}
    (h : (configured σ first me).Steps Node.Newer n later) : n.myvid ≤ later.myvid := by
  induction h with
  | refl => exact Nat.le_refl _
  | step _ hnewer hstep ih => exact ih.trans (myvid_le_of_configStep hnewer hstep)

/-- **Config follows the acceptor.**  In every interleaving of decisions and upcalls in which
    `paxos_commit` is entered for an instance above `myvid` only, config holds the members of
    view `myvid`, `myvid` never decreases, and with no upcall on its way it is the last
    decided instance. -/
theorem config_follows_acceptor (h : (configured σ first me).Reach Node.Newer n) :
    n.FollowsAcceptor first me Node.Newer := by
  obtain ⟨hmirrors, hinformed⟩ : n.Mirrors ∧ n.Informed := by
    refine h.invariant (P := fun n => n.Mirrors ∧ n.Informed) ?_ ?_
    · rintro start ⟨svc, records, junk, hwf, hboot⟩
      exact Node.mirrors_boot hwf hboot
    · rintro state next action ⟨hmirrors, hinformed⟩ hnewer hstep
      exact ⟨hmirrors.step hstep, hinformed.step hmirrors hnewer hstep⟩
  refine ⟨hmirrors.mems, fun hnone => ?_, fun later => Node.myvid_le_of_steps⟩
  refine hinformed.resolve_right fun ⟨v, hv⟩ => ?_
  rw [hnone] at hv
  cases hv

end Runs

/-! ### Two decisions -/

/-- The first node learns instance 2 from an `oldinstance` answer and accepts and decides
    instance 3 of node `b`; both upcalls are on their way. -/
def twoDecisions : List Node.ConfigAction :=
  let n : PropT := ⟨1, "b"⟩
  [.paxos (.commit 2 "a b "),
   .paxos (.request (.prepare ⟨3, n⟩)),
   .paxos (.request (.accept ⟨3, n, "a b c "⟩)),
   .paxos (.request (.decide ⟨3, "a b c "⟩))]

def Node.configView (n : Node Unit) : Nat × Nat × List (Nat × String) :=
  (n.myvid, n.acc.instanceH, n.upcalls)

theorem config_follows_acceptor_twoDecisions :
    ∃ n : Node Unit, (configured Unit "a" "a").Reach Node.Newer n ∧ n.configView = (3, 3, []) ∧
      n.FollowsAcceptor "a" "a" Node.Newer := by
  obtain ⟨n, hreach, hseen⟩ : ∃ n, (configured Unit "a" "a").Reach Node.Newer n ∧
      n.configView = (3, 3, []) :=
    System.Reach.of_start_exec (fun n action => decide (n.Newer action))
      (twoDecisions ++ [.paxosCommit (2, "a b "), .paxosCommit (3, "a b c ")])
      (fun _ (hboot : _ ∈ Node.boot "a" "a" () [] 0) => ⟨(), [], 0, by simp, hboot⟩)
      (fun _ _ h => of_decide_eq_true h)
      (by decide +kernel)
  exact ⟨n, hreach, hseen, config_follows_acceptor hreach⟩

/-- The thread that decided instance 3 is faster.  `myvid` goes from 3 back to 2 and stays
    there although the acceptor has decided instance 3. -/
theorem late_upcall_moves_back :
    ¬ ∀ (first me : String) (n : Node Unit), (configured Unit first me).Reach anyStep n →
      n.FollowsAcceptor first me anyStep := by
  intro hclaim
  obtain ⟨n, hreach, hseen⟩ : ∃ n, (configured Unit "a" "a").Reach anyStep n ∧
      n.configView = (2, 3, []) :=
    System.Reach.of_start_exec (fun _ _ => true)
      (twoDecisions ++ [.paxosCommit (3, "a b c "), .paxosCommit (2, "a b ")])
      (fun _ (hboot : _ ∈ Node.boot "a" "a" () [] 0) => ⟨(), [], 0, by simp, hboot⟩)
      (fun _ _ _ => trivial) (by decide +kernel)
  have hcaughtUp := (hclaim "a" "a" n hreach).caughtUp
  simp only [Node.configView, Prod.mk.injEq] at hseen
  obtain ⟨hmyvid, hinst, hnone⟩ := hseen
  rw [hmyvid, hinst] at hcaughtUp
  exact absurd (hcaughtUp hnone) (by decide)

end DistributedLab.Rsm
