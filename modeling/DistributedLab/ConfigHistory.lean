import DistributedLab.ConfigCluster

/-!
# View histories without gaps

`commit_wo` takes any instance above `instance_h`.  That no instance is left out rests
on the callers: a decide request is for `instance_h + 1`, and a proposer, which commits
the instance of its run when it is told that it is old, runs for an instance that was
`myvid + 1` when `add` or `remove_wo` looked.  `myvid` may lag behind `instance_h` or
fall back, but it is always an instance the acceptor has decided, so a run is for
`instance_h + 1` at most.

`restore` can move `instance_h` back, and it takes neither `pxs_mutex`.  A run or an
upcall that began before it then carries an instance that is too high.
`restored_over_run_leaves_gap` is such a run of the cluster.
-/

namespace DistributedLab.Config

open Transition TextStream Paxos

/-! ### The steps considered -/

/-- The last instance that a log decides. -/
def lastInstance (log : List Char) : Nat :=
  (((Acceptor.blank "" log).logread 0).map fun acc => acc.instanceH).getD 0

/-- Nothing that `p` is in the middle of is for an instance beyond the one that follows
    `last`. -/
structure Cluster.NothingBeyond (s : Cluster) (p : String) (last : Nat) : Prop where
  run : ∀ r, (s.pro p).run = some r → r.inst ≤ last + 1
  proposals : ∀ proposal ∈ (s.peer p).proposals, proposal.inst ≤ last + 1
  upcalls : ∀ upcall ∈ (s.peer p).upcalls, upcall.1 ≤ last

/-- Node names are words, and a log is restored when nothing in progress is beyond it. -/
def Seamless (s : Cluster) : Action → Prop
  | .joinreq _ m => IsWord m
  | .start p _ => IsWord p
  | .restore p log _ => s.NothingBeyond p (lastInstance log)
  | _ => True

instance (s : Cluster) (p : String) (last : Nat) : Decidable (s.NothingBeyond p last) :=
  decidable_of_iff
    ((s.pro p).run.all (fun r => decide (r.inst ≤ last + 1)) = true ∧
      (∀ proposal ∈ (s.peer p).proposals, proposal.inst ≤ last + 1) ∧
      ∀ upcall ∈ (s.peer p).upcalls, upcall.1 ≤ last)
    ⟨fun h => ⟨by simpa [Option.all_eq_true] using h.1, h.2.1, h.2.2⟩,
      fun h => ⟨by simpa [Option.all_eq_true] using h.run, h.proposals, h.upcalls⟩⟩

instance (s : Cluster) : (action : Action) → Decidable (Seamless s action)
  | .joinreq _ m => inferInstanceAs (Decidable (IsWord m))
  | .start p _ => inferInstanceAs (Decidable (IsWord p))
  | .restore p log _ => inferInstanceAs (Decidable (s.NothingBeyond p (lastInstance log)))
  | .paxos _ | .run .. | .paxosCommit .. | .commitChange .. | .add .. | .dump .. | .joined _
  | .wake _ | .ping _ | .pong _ | .fail _ | .heartbeat _ | .crash _ =>
      inferInstanceAs (Decidable True)

/-- The actions that replace the history of `p` by that of a log. -/
def Action.Replaces (p : String) : Action → Prop
  | .restore q _ _ => q = p
  | .start q _ => q = p
  | _ => False

/-- The history of `later` continues that of `a`: the values decided by `a` stay, and the log
    has grown by one `done` record for each new instance, in order. -/
structure Continues (a later : Acceptor) : Prop where
  le : a.instanceH ≤ later.instanceH
  values : ∀ i, i ≤ a.instanceH → later.values i = a.values i
  file : ∃ records, later.file = a.file ++ logText records ∧
    decisions records = (List.range' (a.instanceH + 1) (later.instanceH - a.instanceH)).map
      fun i => (i, later.value i)

/-- The view history of `p` has no gap, and until it is replaced it grows by one instance at a
    time and never changes. -/
structure GapFree (first : String) (ok : Cluster → Action → Prop) (s : Cluster) (p : String) :
    Prop where
  defined : ∀ i, 1 ≤ i → i ≤ (s.acc p).instanceH → (s.acc p).values i ≠ none
  next : ∀ action t, ok s action → ¬ action.Replaces p → s.step first action = some t →
    (t.acc p).instanceH ≤ (s.acc p).instanceH + 1
  continues : ∀ t, (views first).Steps (fun s action => ok s action ∧ ¬ action.Replaces p) s t →
    Continues (s.acc p) (t.acc p)

/-! ### Histories that continue -/

theorem Continues.refl (a : Acceptor) : Continues a a where
  le := Nat.le_refl _
  values := fun _ _ => rfl
  file := ⟨[], by simp [logText], by simp [decisions]⟩

theorem Continues.trans {a b c : Acceptor} (h : Continues a b) (h' : Continues b c) :
    Continues a c := by
  have hle := h.le
  have hle' := h'.le
  refine ⟨hle.trans hle', fun i hi => ?_, ?_⟩
  · rw [h'.values i (by omega), h.values i hi]
  · obtain ⟨records, hfile, hdecisions⟩ := h.file
    obtain ⟨records', hfile', hdecisions'⟩ := h'.file
    refine ⟨records ++ records', ?_, ?_⟩
    · rw [hfile', hfile, logText_append, List.append_assoc]
    · have hsplit : List.range' (a.instanceH + 1) (c.instanceH - a.instanceH) =
          List.range' (a.instanceH + 1) (b.instanceH - a.instanceH) ++
            List.range' (b.instanceH + 1) (c.instanceH - b.instanceH) := by
        have hstart : b.instanceH + 1 = a.instanceH + 1 + (b.instanceH - a.instanceH) := by omega
        rw [hstart, List.range'_append_1]
        congr 1
        omega
      rw [decisions_append, hdecisions, hdecisions', hsplit, List.map_append]
      congr 1
      -- what `b` has decided is not changed by `c`
      refine List.map_congr_left fun i hi => ?_
      rw [List.mem_range'_1] at hi
      rw [Acceptor.value, Acceptor.value, h'.values i (by omega)]

/-- One call that decides at most the next instance. -/
theorem continues_of_progress {a next : Acceptor} (h : a.Progress next)
    (hnext : next.instanceH ≤ a.instanceH + 1) : Continues a next := by
  cases h with
  | kept records hundecided hlength hfile hinst hvalues hme =>
      refine ⟨hinst.ge, fun i _ => by rw [hvalues], records, hfile, ?_⟩
      rw [decisions_eq_nil hundecided, hinst, Nat.sub_self]
      rfl
  | decided inst v hlt heq =>
      subst heq
      have hinst : inst = a.instanceH + 1 := Nat.le_antisymm hnext hlt
      subst hinst
      refine ⟨Nat.le_succ _, fun i hi => Function.update_of_ne (by omega) _ _,
        [.done (a.instanceH + 1) v], by simp [Acceptor.committed, Acceptor.append], ?_⟩
      have hvalue : (a.committed (a.instanceH + 1) v).value (a.instanceH + 1) = v := by
        simp [Acceptor.value, Acceptor.committed, Acceptor.append]
      have hone : (a.committed (a.instanceH + 1) v).instanceH - a.instanceH = 1 :=
        Nat.add_sub_cancel_left ..
      simp [hone, hvalue, decisions]

/-- What a step makes of the acceptor of one node.  Without a run beyond the next instance a
    call decides at most that instance. -/
inductive AccChange (first : String) (s : Cluster) (q : String) (after : Acceptor) : Action → Prop
  | progress {action : Action} (h : (s.acc q).Progress after)
      (hnext : (∀ r, (s.pro q).run = some r → r.inst ≤ (s.acc q).instanceH + 1) →
        after.instanceH ≤ (s.acc q).instanceH + 1) : AccChange first s q after action
  | restored {log : List Char} {junk : Nat} (hlog : (q, log) ∈ s.logs)
      (hacc : (s.acc q).restore log junk = some after) :
      AccChange first s q after (.restore q log junk)
  | unreadable {log : List Char} {junk : Nat} (hlog : (q, log) ∈ s.logs)
      (hacc : (s.acc q).restore log junk = none) :
      AccChange first s q after (.restore q log junk)
  | started {junk : Nat} (hacc : Acceptor.new (q == first) q q (s.acc q).file junk = some after) :
      AccChange first s q after (.start q junk)

theorem Cluster.Move.acc_change {first : String} {s t : Cluster} {action : Action}
    (h : s.Move first action t) (q : String) : AccChange first s q (t.acc q) action := by
  have same : ∀ {action : Action}, AccChange first s q (s.acc q) action :=
    .progress (.refl _) fun _ => Nat.le_succ _
  cases h with
  | paxos hrun hmove =>
      rw [Cluster.acc_withPaxos]
      exact .progress (hmove.progress q) hmove.instanceH_le_succ
  | run hup hmem hmove => exact .progress (hmove.progress q) hmove.instanceH_le_succ
  | peer hup hstep ht =>
      rw [ht.acc]
      exact same
  | joinreq hup hm => exact same
  | dump hmember => exact same
  | restored hlog hacc =>
      rw [Cluster.acc_setPeer, Cluster.acc_setAcc]
      split
      · rename_i heq
        subst heq
        exact .restored hlog hacc
      · exact same
  | unreadable hlog hacc =>
      rw [Cluster.acc_setDown, Cluster.acc_setAcc]
      split
      · rename_i heq
        subst heq
        exact .unreadable hlog hacc
      · exact same
  | ping => exact same
  | heartbeat => exact same
  | down =>
      rw [Cluster.acc_setDown]
      exact same
  | started hacc hnext hvid ht =>
      rw [ht.acc, Cluster.acc_setPeer, Cluster.acc_boot]
      split
      · rename_i heq
        subst heq
        exact .started hacc
      · exact same

/-! ### The invariant -/

/-- Nothing in a config module is ahead of its acceptor; runs and proposals are for the next
    instance at most. -/
structure Peer.Within (acc : Acceptor) (pro : Proposer) (c : Peer) : Prop where
  myvid : c.myvid ≤ acc.instanceH
  upcalls : ∀ upcall ∈ c.upcalls, upcall.1 ≤ acc.instanceH
  proposals : ∀ proposal ∈ c.proposals, proposal.inst ≤ acc.instanceH + 1
  run : ∀ r, pro.run = some r → r.inst ≤ acc.instanceH + 1

/-- All logs are chronicles of values that satisfy `Q`, and config is not ahead of them. -/
structure Cluster.Recorded (Q : String → Prop) (s : Cluster) : Prop where
  wired : s.paxos.Wired
  word : ∀ p, s.up p = true → IsWord p
  chronicled : s.paxos.Chronicled Q
  within : ∀ p, (s.peer p).Within (s.acc p) (s.pro p)
  logs : ∀ {m log}, (m, log) ∈ s.logs → ∃ value last, 1 ≤ last ∧ Chronicle Q value last log

section Peers

variable {acc : Acceptor} {pro : Proposer} {c next : Peer} {me : String}

theorem Peer.nextvid_le (c : Peer) : c.nextvid ≤ c.myvid + 1 := Nat.mod_le ..

/-- What `add` and `remove_wo` propose is for the next instance at most. -/
theorem Peer.Within.nextvid (h : c.Within acc pro) : c.nextvid ≤ acc.instanceH + 1 := by
  have hmyvid := h.myvid
  have hnextvid := c.nextvid_le
  omega

theorem Peer.Within.removeWo (h : c.Within acc pro) (m : String) :
    (c.removeWo m).Within acc pro := by
  exact ⟨h.myvid, h.upcalls, List.forall_mem_cons.mpr ⟨h.nextvid, h.proposals⟩, h.run⟩

theorem Peer.Within.add (h : c.Within acc pro) (m : String) (vid : Nat) :
    (c.add m vid).Within acc pro := by
  unfold Peer.add
  dsimp only
  split
  · exact ⟨h.myvid, h.upcalls, h.proposals, h.run⟩
  · exact ⟨h.myvid, h.upcalls, List.forall_mem_cons.mpr ⟨h.nextvid, h.proposals⟩, h.run⟩

theorem Peer.Within.atView (h : c.Within acc pro) {vid : Nat} (hnext : c.AtView vid next) :
    next.Within acc pro := by
  rcases hnext with rfl | ⟨primary, rfl⟩
  · exact h
  · exact ⟨h.myvid, h.upcalls, h.proposals, h.run⟩

theorem Peer.Within.step (h : c.Within acc pro) (hstep : c.Step acc me next) :
    next.Within acc pro := by
  cases hstep with
  | paxosCommit hmem =>
      exact ⟨h.upcalls _ hmem, fun other hother => h.upcalls other (List.mem_of_mem_erase hother),
        h.proposals, h.run⟩
  | @commitChange vid next hmem hnext =>
      have herased : ({ c with changes := c.changes.erase vid } : Peer).Within acc pro :=
        ⟨h.myvid, h.upcalls, h.proposals, h.run⟩
      exact herased.atView hnext
  | @joined next hnext =>
      have hreturned : ({ c with joined := false } : Peer).Within acc pro :=
        ⟨h.myvid, h.upcalls, h.proposals, h.run⟩
      exact hreturned.atView hnext
  | add hmem => exact h.add _ _
  | wake =>
      unfold Peer.wake
      dsimp only
      split
      · exact ⟨h.myvid, h.upcalls, h.proposals, h.run⟩
      · exact h
  | pong hround => exact ⟨h.myvid, h.upcalls, h.proposals, h.run⟩
  | rested => exact ⟨h.myvid, h.upcalls, h.proposals, h.run⟩
  | failed hround =>
      have hleft : ({ c with round := none } : Peer).Within acc pro :=
        ⟨h.myvid, h.upcalls, h.proposals, h.run⟩
      unfold Peer.failed
      dsimp only
      split
      · exact hleft.removeWo _
      · exact hleft

/-- After `reconstruct` over a log that decides something, `myvid` is its last instance. -/
theorem Peer.reconstruct_of_pos (c : Peer) (h : 1 ≤ acc.instanceH) :
    c.reconstruct acc =
      { c with myvid := acc.instanceH, mems := getView acc acc.instanceH } := by
  rw [Peer.reconstruct_eq]
  exact if_pos h

end Peers

section Preservation

variable {Q : String → Prop} {first : String} {s t : Cluster} {p : String}

theorem Cluster.Recorded.setPeer (h : s.Recorded Q) {c : Peer}
    (hc : c.Within (s.acc p) (s.pro p)) : (s.setPeer p c).Recorded Q where
  wired := h.wired
  word := h.word
  chronicled := h.chronicled
  within := fun q => by
    rw [Cluster.peer_setPeer]
    split
    · rename_i heq
      exact heq ▸ hc
    · exact h.within q
  logs := h.logs

theorem Cluster.Recorded.setDown (h : s.Recorded Q) (p : String) : (s.setDown p).Recorded Q where
  wired := h.wired.congr (funext (s.paxos.pro_setDown p)) rfl rfl
  word := fun q hq => h.word q (s.up_setDown p q hq)
  chronicled := h.chronicled.setDown p
  within := fun q => by
    rw [Cluster.acc_setDown, Cluster.pro_setDown]
    exact h.within q
  logs := h.logs

theorem Cluster.Recorded.orDown (h : s.Recorded Q) (ht : s.OrDown p t) : t.Recorded Q := by
  rcases ht with rfl | rfl
  · exact h
  · exact h.setDown p

/-- A step of the acceptors and proposers. -/
theorem Cluster.Recorded.paxos (h : s.Recorded Q) {action : Paxos.Action} {next : Paxos.Cluster}
    (hrun : ∀ p inst curNodes newv, action ≠ .run p inst curNodes newv)
    (hmove : s.paxos.Move action next) (hline : ∀ v, Q v → '\n' ∉ v.toList) :
    (s.withPaxos action.node next).Recorded Q where
  wired := by
    rw [Cluster.paxos_withPaxos]
    exact h.wired.move hmove
  word := fun q hq => by
    rw [Cluster.up, Cluster.paxos_withPaxos] at hq
    exact h.word q (hmove.up hq)
  chronicled := by
    rw [Cluster.paxos_withPaxos]
    exact h.chronicled.move h.wired hmove hline
      (fun p inst curNodes newv heq => absurd heq (hrun p inst curNodes newv))
      fun q r hr => (h.within q).run r hr
  within := fun q => by
    have hle : (s.acc q).instanceH ≤ (next.acc q).instanceH := (hmove.progress q).instanceH_le
    have hruns : ∀ r, (next.pro q).run = some r → r.inst ≤ (next.acc q).instanceH + 1 := by
      intro r hr
      rcases hmove.run_cases hr with ⟨r₀, hr₀, hinst⟩ | ⟨curNodes, newv, heq⟩
      · have := (h.within q).run r₀ hr₀
        omega
      · exact absurd heq (hrun _ _ _ _)
    have hkept : (s.peer q).Within (next.acc q) (next.pro q) :=
      ⟨(h.within q).myvid.trans hle, fun u hu => ((h.within q).upcalls u hu).trans hle,
        fun x hx => ((h.within q).proposals x hx).trans (Nat.succ_le_succ hle), hruns⟩
    rw [Cluster.acc, Cluster.pro, Cluster.paxos_withPaxos]
    by_cases hq : q = action.node
    · subst hq
      rw [Cluster.peer_withPaxos_self]
      split
      · refine ⟨hkept.myvid, fun u hu => ?_, hkept.proposals, hkept.run⟩
        rcases List.mem_append.mp hu with hold | hnew
        · exact hkept.upcalls u hold
        · rw [List.mem_singleton.mp hnew]
      · exact hkept
    · rw [Cluster.peer_withPaxos_of_ne _ _ _ _ hq]
      exact hkept
  logs := by
    rw [Cluster.logs_withPaxos]
    exact h.logs

/-- `run` begins with the arguments that `add` or `remove_wo` took. -/
theorem Cluster.Recorded.run (h : s.Recorded Q) {proposal : Proposal} {next : Paxos.Cluster}
    (hup : s.up p = true) (hmem : proposal ∈ (s.peer p).proposals) (hQ : Q proposal.newv)
    (hmove : s.paxos.Move (.run p proposal.inst proposal.curNodes proposal.newv) next)
    (hline : ∀ v, Q v → '\n' ∉ v.toList) :
    (({ s with paxos := next } : Cluster).setPeer p
      { s.peer p with proposals := (s.peer p).proposals.erase proposal }).Recorded Q := by
  have hacc : ∀ q, next.acc q = s.acc q := fun q => by
    cases hmove with
    | run hrun hinst => exact s.paxos.acc_setPro ..
  have hruns : ∀ q r, (next.pro q).run = some r → r.inst ≤ (s.acc q).instanceH + 1 := by
    intro q r hr
    rcases hmove.run_cases hr with ⟨r₀, hr₀, hinst⟩ | ⟨curNodes, newv, heq⟩
    · exact hinst ▸ (h.within q).run r₀ hr₀
    · obtain ⟨rfl, hinst, -⟩ := Paxos.Action.run.inj heq
      exact hinst ▸ (h.within _).proposals proposal hmem
  have hwithin : ∀ q, (s.peer q).Within (next.acc q) (next.pro q) := fun q => by
    rw [hacc]
    exact ⟨(h.within q).myvid, (h.within q).upcalls, (h.within q).proposals, hruns q⟩
  refine
    { wired := h.wired.move hmove
      word := fun q hq => h.word q (hmove.up hq)
      chronicled := h.chronicled.move h.wired hmove hline ?_ fun q r hr => (h.within q).run r hr
      within := fun q => ?_
      logs := h.logs }
  · intro q inst curNodes newv heq
    obtain ⟨rfl, -, -, rfl⟩ := Paxos.Action.run.inj heq
    exact ⟨h.word _ hup, hQ⟩
  · rw [Cluster.peer_setPeer]
    split
    · rename_i heq
      subst heq
      exact ⟨(hwithin q).myvid, (hwithin q).upcalls,
        fun x hx => (hwithin q).proposals x (List.mem_of_mem_erase hx), (hwithin q).run⟩
    · exact hwithin q

/-- A node that knows a member has decided something. -/
theorem one_le_instanceH_of_ismember {acc : Acceptor}
    (h : acc.Complete Q) {m : String} {vid : Nat} (hmember : ismember acc m vid = true) :
    1 ≤ acc.instanceH := by
  refine Nat.one_le_iff_ne_zero.mpr fun hzero => ?_
  have hblank : acc.value vid = "" := by
    rw [Acceptor.value]
    exact congrArg (Option.getD · "") (h.blank hzero vid)
  simp [ismember, getView, hblank, isamember] at hmember

/-- Its dump is its log. -/
theorem Cluster.Recorded.dump (h : s.Recorded Q) {m : String} {vid : Nat}
    (hmember : ismember (s.acc p) m vid = true) :
    ({ s with logs := (m, (s.acc p).dump) :: s.logs } : Cluster).Recorded Q where
  wired := h.wired
  word := h.word
  chronicled := h.chronicled
  within := h.within
  logs := fun {m' log} hlog => by
    rcases List.mem_cons.mp hlog with heq | hold
    · have hcomplete : (s.acc p).Complete Q := h.chronicled.acceptor p
      obtain ⟨-, rfl⟩ := Prod.mk.inj heq
      have hpos := one_le_instanceH_of_ismember hcomplete hmember
      refine ⟨(s.acc p).value, (s.acc p).instanceH, hpos, ?_⟩
      · rw [Acceptor.dump, Chronicle.dump hcomplete.file]
        exact hcomplete.file
    · exact h.logs hold

theorem lastInstance_of_chronicle {value : Nat → String} {last : Nat} {log : List Char}
    (h : Chronicle Q value last log) : lastInstance log = last := by
  obtain ⟨read, hread⟩ := Chronicle.logread_isSome (a := Acceptor.blank "" log) h 0
  have hreads := Acceptor.reads_of_logread (a := Acceptor.blank "" log) h hread
  rw [lastInstance, hread, Option.map_some, Option.getD_some, hreads.instanceH]
  split
  · rename_i hzero
    exact hzero.symm
  · rfl

/-- What `restore` makes of the acceptor of `p`. -/
theorem Cluster.Recorded.reads_restore (h : s.Recorded Q) {log : List Char} {junk : Nat}
    {acc : Acceptor} (hlog : (p, log) ∈ s.logs) (hacc : (s.acc p).restore log junk = some acc) :
    acc.Complete Q ∧ acc.instanceH = lastInstance log ∧ 1 ≤ acc.instanceH := by
  obtain ⟨value, last, hpos, hchronicle⟩ := h.logs hlog
  have hreads := Acceptor.reads_of_logread (a := { s.acc p with file := log }) hchronicle hacc
  have hcomplete := h.chronicled.acceptor p
  have hlast : acc.instanceH = last := by
    rw [hreads.instanceH, if_neg (by omega)]
  refine ⟨hreads.complete hcomplete.zero (fun hzero => by omega) hcomplete.accepted
    hcomplete.held, ?_, hlast ▸ hpos⟩
  rw [hlast, lastInstance_of_chronicle hchronicle]

/-- `restore` does not abort. -/
theorem Cluster.Recorded.restore_ne_none (h : s.Recorded Q) {log : List Char}
    (hlog : (p, log) ∈ s.logs) (junk : Nat) : (s.acc p).restore log junk ≠ none := by
  obtain ⟨value, last, -, hchronicle⟩ := h.logs hlog
  obtain ⟨acc, hread⟩ :=
    Chronicle.logread_isSome (a := { s.acc p with file := log }) hchronicle junk
  rw [Acceptor.restore, hread]
  exact Option.some_ne_none acc

theorem Cluster.Recorded.restored (h : s.Recorded Q) {log : List Char} {junk : Nat}
    {acc : Acceptor} (hlog : (p, log) ∈ s.logs) (hacc : (s.acc p).restore log junk = some acc)
    (hbeyond : s.NothingBeyond p (lastInstance log)) :
    ((s.setAcc p acc).setPeer p
      { (s.peer p).reconstruct acc with joined := true }).Recorded Q := by
  obtain ⟨hcomplete, hlast, hpos⟩ := h.reads_restore hlog hacc
  rw [← hlast] at hbeyond
  have hreconstructed :
      ({ (s.peer p).reconstruct acc with joined := true } : Peer).Within acc (s.pro p) := by
    rw [Peer.reconstruct_of_pos _ hpos]
    exact ⟨Nat.le_refl _, hbeyond.upcalls, hbeyond.proposals, hbeyond.run⟩
  refine
    { wired := h.wired.setAcc p acc
      word := fun q hq => h.word q ?_
      chronicled := h.chronicled.setAcc hcomplete
      within := fun q => ?_
      logs := h.logs }
  · by_cases heq : q = p
    · subst heq
      simpa [Cluster.up, Cluster.setPeer, Cluster.setAcc, Paxos.Cluster.setAcc] using hq
    · simpa [Cluster.up, Cluster.setPeer, Cluster.setAcc, Paxos.Cluster.setAcc, heq] using hq
  · rw [Cluster.peer_setPeer, Cluster.acc_setPeer, Cluster.acc_setAcc]
    show (if q = p then _ else s.peer q).Within _ ((s.setAcc p acc).pro q)
    rw [Cluster.pro_setAcc]
    by_cases heq : q = p
    · subst heq
      rw [if_pos rfl, if_pos rfl]
      exact hreconstructed
    · rw [if_neg heq, if_neg heq]
      exact h.within q

theorem Cluster.Recorded.started (h : s.Recorded Q) {junk vid : Nat} {acc : Acceptor} {next : Peer}
    (hacc : Acceptor.new (p == first) p p (s.acc p).file junk = some acc)
    (hnext : ((Peer.blank first).reconstruct acc).AtView vid next) (hword : IsWord p)
    (hfirst : IsWord first → Q first) (hline : ∀ v, Q v → '\n' ∉ v.toList) :
    ((s.boot p acc).setPeer p next).Recorded Q := by
  have hcomplete : acc.Complete Q := by
    refine (Acceptor.complete_new (h.chronicled.acceptor p).file hacc (fun hp => ?_) hline).1
    have heq : p = first := eq_of_beq hp
    rw [heq] at hword ⊢
    exact hfirst hword
  have hwired : (s.paxos.setPro p (newProposer p (s.pro p).xid)).Wired :=
    h.wired.setPro (h.wired.owner p).symm (Nat.le_refl _) fun r hr => by cases hr
  have hchronicled : (s.paxos.setPro p (newProposer p (s.pro p).xid)).Chronicled Q :=
    h.chronicled.setPro (by decide : 0 < unsignedBound) fun r hr => by cases hr
  refine
    { wired := (hwired.setAcc p acc).congr (s.pros_boot p acc) rfl rfl
      word := fun q hq => ?_
      chronicled := (hchronicled.setAcc hcomplete).congr (s.accs_boot p acc) (s.pros_boot p acc)
        rfl rfl
      within := fun q => ?_
      logs := h.logs }
  · rcases s.up_boot p q acc hq with rfl | hq
    · exact hword
    · exact h.word q hq
  · have hblank : ((Peer.blank first).reconstruct acc).Within acc ((s.boot p acc).pro p) := by
      rw [Cluster.pro_boot, if_pos rfl]
      rw [Peer.reconstruct_eq]
      split
      · exact ⟨Nat.le_refl _, nofun, nofun, nofun⟩
      · exact ⟨Nat.zero_le _, nofun, nofun, nofun⟩
    rw [Cluster.peer_setPeer, Cluster.acc_setPeer, Cluster.acc_boot]
    show (if q = p then next else s.peer q).Within _ ((s.boot p acc).pro q)
    by_cases heq : q = p
    · subst heq
      rw [if_pos rfl, if_pos rfl]
      exact hblank.atView hnext
    · rw [if_neg heq, if_neg heq, Cluster.pro_boot, if_neg heq]
      exact h.within q

/-- One step keeps all logs complete.  `hQ` is what has to be known of the proposed values. -/
theorem Cluster.Recorded.move {action : Action} (h : s.Recorded Q) (hmove : s.Move first action t)
    (hseamless : Seamless s action) (hfirst : IsWord first → Q first)
    (hline : ∀ v, Q v → '\n' ∉ v.toList)
    (hQ : ∀ p, ∀ proposal ∈ (s.peer p).proposals, Q proposal.newv) : t.Recorded Q := by
  cases hmove with
  | paxos hrun hmove => exact h.paxos hrun hmove hline
  | run hup hmem hmove => exact h.run hup hmem (hQ _ _ hmem) hmove hline
  | peer hup hstep ht => exact (h.setPeer ((h.within _).step hstep)).orDown ht
  | @joinreq p m hup hm =>
      exact h.setPeer ⟨(h.within p).myvid, (h.within p).upcalls, (h.within p).proposals,
        (h.within p).run⟩
  | dump hmember => exact h.dump hmember
  | restored hlog hacc => exact h.restored hlog hacc hseamless
  | unreadable hlog hacc => exact absurd hacc (h.restore_ne_none hlog _)
  | ping => exact ⟨h.wired, h.word, h.chronicled, h.within, h.logs⟩
  | heartbeat => exact h
  | down => exact h.setDown _
  | started hacc hnext hvid ht => exact (h.started hacc hnext hseamless hfirst hline).orDown ht

theorem Cluster.recorded_initial (Q : String → Prop) (first : String) :
    (Cluster.initial first).Recorded Q where
  wired :=
    { owner := fun _ => rfl
      xid_lt := nofun
      pending := nofun
      reply_call := nofun }
  word := nofun
  chronicled :=
    { acceptor := fun p =>
        { zero := rfl
          blank := fun _ _ => rfl
          defined := fun i hpos hle => absurd (Nat.lt_of_lt_of_le hpos hle) (Nat.lt_irrefl 0)
          file := ⟨[], rfl, nofun, rfl⟩
          accepted := .inl rfl
          held := nofun }
      call := nofun
      reply := nofun
      myN := fun _ => (by decide : 0 < unsignedBound)
      run := nofun }
  within := fun _ => ⟨Nat.zero_le _, nofun, nofun, nofun⟩
  logs := nofun

end Preservation

/-! ### What the nodes propose -/

/-- A value fits on one line of the log. -/
def OneLine (v : String) : Prop := '\n' ∉ v.toList

theorem oneLine_value {view : List String} (h : ∀ m ∈ view, IsWord m) : OneLine (value view) := by
  intro hmem
  simp only [value, String.toList_ofList, List.mem_flatMap, List.mem_append,
    List.mem_singleton] at hmem
  obtain ⟨m, hm, hchar | hblank⟩ := hmem
  · exact newline_not_mem_of_isWord (h m hm) hchar
  · cases hblank

/-- The names in a config module are words, and so its proposals fit on one line. -/
structure Peer.Written (c : Peer) : Prop where
  mems : ∀ m ∈ c.mems, IsWord m
  joins : ∀ join ∈ c.joins, IsWord join.1
  proposals : ∀ proposal ∈ c.proposals, OneLine proposal.newv

section Written

variable {acc : Acceptor} {c next : Peer} {me first : String}

theorem Peer.Written.atView (h : c.Written) {vid : Nat} (hnext : c.AtView vid next) :
    next.Written := by
  rcases hnext with rfl | ⟨primary, rfl⟩
  · exact h
  · exact ⟨h.mems, h.joins, h.proposals⟩

theorem Peer.Written.reconstruct (h : c.Written) (acc : Acceptor) :
    (c.reconstruct acc).Written := by
  rw [Peer.reconstruct_eq]
  split
  · exact ⟨fun m => isWord_of_mem_members, h.joins, h.proposals⟩
  · exact h

theorem Peer.Written.removeWo (h : c.Written) (m : String) : (c.removeWo m).Written := by
  have hview : OneLine (value (removeMember c.mems m)) :=
    oneLine_value fun member hmember => h.mems member (List.mem_of_mem_filter hmember)
  exact ⟨h.mems, h.joins, List.forall_mem_cons.mpr ⟨hview, h.proposals⟩⟩

theorem Peer.Written.add (h : c.Written) {m : String} {vid : Nat} (hmem : (m, vid) ∈ c.joins) :
    (c.add m vid).Written := by
  have hjoins : ∀ join ∈ c.joins.erase (m, vid), IsWord join.1 :=
    fun join hjoin => h.joins join (List.mem_of_mem_erase hjoin)
  unfold Peer.add
  dsimp only
  split
  · exact ⟨h.mems, hjoins, h.proposals⟩
  · have hview : ∀ member ∈ c.mems ++ [m], IsWord member :=
      List.forall_mem_append.mpr ⟨h.mems, List.forall_mem_singleton.mpr (h.joins _ hmem)⟩
    exact ⟨h.mems, hjoins, List.forall_mem_cons.mpr ⟨oneLine_value hview, h.proposals⟩⟩

theorem Peer.Written.step (h : c.Written) (hstep : c.Step acc me next) : next.Written := by
  cases hstep with
  | paxosCommit hmem => exact ⟨fun m => isWord_of_mem_members, h.joins, h.proposals⟩
  | @commitChange vid next hmem hnext =>
      have herased : ({ c with changes := c.changes.erase vid } : Peer).Written :=
        ⟨h.mems, h.joins, h.proposals⟩
      exact herased.atView hnext
  | @joined next hnext =>
      have hreturned : ({ c with joined := false } : Peer).Written :=
        ⟨h.mems, h.joins, h.proposals⟩
      exact hreturned.atView hnext
  | add hmem => exact h.add hmem
  | wake =>
      unfold Peer.wake
      dsimp only
      split
      · exact ⟨h.mems, h.joins, h.proposals⟩
      · exact h
  | pong hround => exact ⟨h.mems, h.joins, h.proposals⟩
  | rested => exact ⟨h.mems, h.joins, h.proposals⟩
  | failed hround =>
      have hleft : ({ c with round := none } : Peer).Written := ⟨h.mems, h.joins, h.proposals⟩
      unfold Peer.failed
      dsimp only
      split
      · exact hleft.removeWo _
      · exact hleft

theorem Peer.Written.change {before after : Acceptor} {s : Cluster} {action : Action}
    (h : c.Written) (hchange : c.Change first me before after action next)
    (hseamless : Seamless s action) : next.Written := by
  cases hchange with
  | same hacc => exact h
  | decided hacc hlt => exact ⟨h.mems, h.joins, h.proposals⟩
  | began hacc proposal =>
      exact ⟨h.mems, h.joins, fun x hx => h.proposals x (List.mem_of_mem_erase hx)⟩
  | step hacc hstep => exact h.step hstep
  | joinreq hacc hm =>
      refine ⟨h.mems, fun join hjoin => ?_, h.proposals⟩
      rcases List.mem_cons.mp hjoin with rfl | hold
      · exact hseamless
      · exact h.joins join hold
  | restored =>
      have hreconstructed := h.reconstruct after
      exact ⟨hreconstructed.mems, hreconstructed.joins, hreconstructed.proposals⟩
  | unreadable hacc => exact h
  | started hvid hnext =>
      have hblank : (Peer.blank first).Written := ⟨nofun, nofun, nofun⟩
      exact (hblank.reconstruct after).atView hnext

end Written

/-! ### The theorem -/

section Main

variable {first : String} {s : Cluster}

theorem recorded_of_reach (h : (views first).Reach Seamless s) :
    s.Recorded OneLine ∧ ∀ p, (s.peer p).Written := by
  refine h.invariant (P := fun s => s.Recorded OneLine ∧ ∀ p, (s.peer p).Written) ?_ ?_
  · rintro start rfl
    exact ⟨Cluster.recorded_initial _ first, fun _ => ⟨nofun, nofun, nofun⟩⟩
  · rintro state next action ⟨hrecorded, hwritten⟩ hseamless hstep
    have hmove := Cluster.move_of_step hstep
    refine ⟨hrecorded.move hmove hseamless newline_not_mem_of_isWord (fun _ => id)
      fun p => (hwritten p).proposals, fun p => ?_⟩
    exact (hwritten p).change (hmove.peer_change p) hseamless

/-- A step that does not replace the history of `p` continues it. -/
theorem Cluster.Recorded.continues {Q : String → Prop} {t : Cluster} {action : Action}
    {p : String} (h : s.Recorded Q) (hmove : s.Move first action t)
    (hkeep : ¬ action.Replaces p) :
    Continues (s.acc p) (t.acc p) ∧ (t.acc p).instanceH ≤ (s.acc p).instanceH + 1 := by
  cases hmove.acc_change p with
  | progress hprogress hnext =>
      have hle := hnext (h.within p).run
      exact ⟨continues_of_progress hprogress hle, hle⟩
  | restored hlog hacc => exact absurd rfl hkeep
  | unreadable hlog hacc => exact absurd rfl hkeep
  | started hacc => exact absurd rfl hkeep

/-- **View histories without gaps.**  In every run of the cluster in which node names are words
    and a log is restored only when the node is in the middle of nothing beyond it, every
    node has a value for each instance up to `instance_h`, and until its history is replaced
    by a restored or re-read log, `instance_h` grows by one at a time, the log grows by one
    `done` record for each new instance, and no value changes. -/
theorem gapFree_of_seamless (h : (views first).Reach Seamless s) (p : String) :
    GapFree first Seamless s p := by
  obtain ⟨hrecorded, -⟩ := recorded_of_reach h
  refine ⟨(hrecorded.chronicled.acceptor p).defined, fun action t hseamless hkeep hstep => ?_,
    fun t hsteps => ?_⟩
  · exact (hrecorded.continues (Cluster.move_of_step hstep) hkeep).2
  · induction hsteps with
    | refl => exact .refl _
    | @step state next action hrun hguard hstep ih =>
        have hreach : (views first).Reach Seamless state := by
          obtain ⟨start, hinit, hsteps⟩ := h
          exact ⟨start, hinit, hsteps.trans (hrun.mono fun _ _ hok => hok.1)⟩
        exact ih.trans ((recorded_of_reach hreach).1.continues (Cluster.move_of_step hstep)
          hguard.2).1

end Main

/-! ### Two nodes join -/

/-- `a` is the first node; `b` joins and restores the log that it is sent. -/
def secondJoins : List Action :=
  let n : PropT := ⟨1, "a"⟩
  [.start "a" 0, .start "b" 0, .joinreq "a" "b", .add "a" "b" 1, .run "a" ⟨2, ["a"], "a b "⟩] ++
  Action.rpc ⟨"a", 0, "a", .prepare ⟨2, n⟩⟩ (granted "a") ++ [.paxos (.next "a")] ++
  Action.rpc ⟨"a", 1, "a", .accept ⟨2, n, "a b "⟩⟩ (.accept true) ++ [.paxos (.next "a")] ++
  Action.rpc ⟨"a", 2, "a", .decide ⟨2, "a b "⟩⟩ .decide ++
  [.paxos (.next "a"), .paxosCommit "a" (2, "a b "), .commitChange "a" 2, .dump "a" "b",
   .restore "b" (logText [.done 1 "a", .propseen n, .accepted n "a b ", .done 2 "a b "]) 0,
   .joined "b"]

/-- `c` asks to join; `a` and `b` vote for it, and `a` decides. -/
def thirdVotes : List Action :=
  let n : PropT := ⟨2, "a"⟩
  let v := "a b c "
  [.start "c" 0, .joinreq "a" "c", .add "a" "c" 2, .run "a" ⟨3, ["a", "b"], v⟩] ++
  Action.rpc ⟨"a", 3, "a", .prepare ⟨3, n⟩⟩ (granted "a") ++
  Action.rpc ⟨"a", 4, "b", .prepare ⟨3, n⟩⟩ (granted "a") ++ [.paxos (.next "a")] ++
  Action.rpc ⟨"a", 5, "a", .accept ⟨3, n, v⟩⟩ (.accept true) ++
  Action.rpc ⟨"a", 6, "b", .accept ⟨3, n, v⟩⟩ (.accept true) ++ [.paxos (.next "a")] ++
  Action.rpc ⟨"a", 7, "a", .decide ⟨3, v⟩⟩ .decide

/-- `c` joins; its answer is lost. -/
def thirdJoins : List Action :=
  let v := "a b c "
  thirdVotes ++
  Action.rpc ⟨"a", 8, "b", .decide ⟨3, v⟩⟩ .decide ++
  [.paxos (.next "a"), .paxosCommit "a" (3, v), .commitChange "a" 3, .paxosCommit "b" (3, v),
   .commitChange "b" 3]

/-- The log of `a` and `b` in view 3. -/
def thirdLog : List Record :=
  [.done 1 "a", .propseen ⟨1, "a"⟩, .accepted ⟨1, "a"⟩ "a b ", .done 2 "a b ",
   .propseen ⟨2, "a"⟩, .accepted ⟨2, "a"⟩ "a b c ", .done 3 "a b c "]

theorem gapFree_thirdJoins :
    ∃ s, (views "a").Reach Seamless s ∧
      ((s.acc "a").instanceH, (s.acc "b").instanceH, (s.acc "b").values 3) =
        (3, 3, some "a b c ") ∧
      GapFree "a" Seamless s "b" := by
  obtain ⟨s, hreach, hseen⟩ : ∃ s, (views "a").Reach Seamless s ∧
      ((s.acc "a").instanceH, (s.acc "b").instanceH, (s.acc "b").values 3) =
        (3, 3, some "a b c ") :=
    System.Reach.of_exec (fun s action => decide (Seamless s action)) (secondJoins ++ thirdJoins)
      rfl (fun _ _ h => of_decide_eq_true h) (by decide +kernel)
  exact ⟨s, hreach, hseen, gapFree_of_seamless hreach "b"⟩

/-! ### A log restored under a run -/

/-- The log of `b` after it has accepted what `a` proposes for instance 4. -/
def staleLog : List Record :=
  thirdLog ++ [.propseen ⟨3, "a"⟩, .accepted ⟨3, "a"⟩ "a b c d "]

/-- `a` has instance 4 decided, which adds `d`; `b` votes for it but does not hear of the
    decision.  `d` restores the log of `a`. -/
def fourthView : List Action :=
  let n : PropT := ⟨3, "a"⟩
  let v := "a b c d "
  [.start "d" 0, .joinreq "a" "d", .add "a" "d" 3, .run "a" ⟨4, ["a", "b", "c"], v⟩] ++
  Action.rpc ⟨"a", 9, "a", .prepare ⟨4, n⟩⟩ (granted "a") ++
  Action.rpc ⟨"a", 10, "b", .prepare ⟨4, n⟩⟩ (granted "b") ++
  [.paxos (.skip "a"), .paxos (.next "a")] ++
  Action.rpc ⟨"a", 11, "a", .accept ⟨4, n, v⟩⟩ (.accept true) ++
  Action.rpc ⟨"a", 12, "b", .accept ⟨4, n, v⟩⟩ (.accept true) ++ [.paxos (.next "a")] ++
  Action.rpc ⟨"a", 13, "a", .decide ⟨4, v⟩⟩ .decide ++
  [.paxos (.skip "a"), .paxos (.next "a"), .paxosCommit "a" (4, v), .commitChange "a" 4,
   .dump "a" "d", .restore "d" (logText (staleLog ++ [.done 4 v])) 0, .joined "d"]

/-- The heartbeater of `a` gets no answer from `b` and runs for instance 5.  Before that run has
    called anyone, `d`, which gets no answer from `a`, has instance 5 decided: `a` leaves. -/
def fifthView : List Action :=
  let n : PropT := ⟨1, "d"⟩
  let v := "b c d "
  [.wake "a", .fail "a", .run "a" ⟨5, ["a", "b", "c", "d"], "a c d "⟩,
   .wake "d", .fail "d", .run "d" ⟨5, ["a", "b", "c", "d"], v⟩] ++
  Action.rpc ⟨"d", 0, "a", .prepare ⟨5, n⟩⟩ (granted "a") ++ [.paxos (.skip "d")] ++
  Action.rpc ⟨"d", 1, "c", .prepare ⟨5, n⟩⟩ (granted "c") ++
  Action.rpc ⟨"d", 2, "d", .prepare ⟨5, n⟩⟩ (granted "a") ++ [.paxos (.next "d")] ++
  Action.rpc ⟨"d", 3, "a", .accept ⟨5, n, v⟩⟩ (.accept true) ++
  Action.rpc ⟨"d", 4, "c", .accept ⟨5, n, v⟩⟩ (.accept true) ++
  Action.rpc ⟨"d", 5, "d", .accept ⟨5, n, v⟩⟩ (.accept true) ++ [.paxos (.next "d")] ++
  Action.rpc ⟨"d", 6, "a", .decide ⟨5, v⟩⟩ .decide ++ [.paxos (.skip "d")] ++
  Action.rpc ⟨"d", 7, "d", .decide ⟨5, v⟩⟩ .decide ++
  [.paxosCommit "a" (5, v), .commitChange "a" 5]

/-- No longer a member, `a` joins again.  `b` is the primary for it, and is still in view 3. -/
def staleRestore : List Action :=
  secondJoins ++ thirdJoins ++ fourthView ++ fifthView ++
  [.dump "b" "a", .restore "a" (logText staleLog) 0, .joined "a"]

/-- The run of `a` reaches no one but `d`. -/
def lateRequest : Call := ⟨"a", 14, "d", .prepare ⟨5, ⟨4, "a"⟩⟩⟩

def lateRun : List Action :=
  [.paxos (.skip "a"), .paxos (.skip "a"), .paxos (.skip "a"), .paxos (.call "a"),
   .paxos (.deliver lateRequest)]

def lateAnswer : Action :=
  .paxos (.receive "a" ⟨lateRequest, .prepare { oldinstance := true, vA := "b c d " }⟩)

/-- The run of `a` commits instance 5 over a log that ends with instance 3. -/
theorem restored_over_run_leaves_gap :
    ¬ ∀ first s p, (views first).Reach anyStep s → GapFree first anyStep s p := by
  intro hclaim
  obtain ⟨s, hreach, hseen⟩ : ∃ s, (views "a").Reach anyStep s ∧
      ((s.acc "a").instanceH, (s.step "a" lateAnswer).map fun t => (t.acc "a").instanceH) =
        (3, some 5) :=
    System.Reach.of_exec (fun _ _ => true) (staleRestore ++ lateRun) rfl (fun _ _ _ => trivial)
      (by decide +kernel)
  obtain ⟨hthree, hfive⟩ := Prod.mk.inj hseen
  obtain ⟨t, hstep, hinst⟩ := Option.map_eq_some_iff.mp hfive
  have hnext := (hclaim "a" s "a" hreach).next lateAnswer t trivial (by simp [Action.Replaces,
    lateAnswer]) hstep
  omega

end DistributedLab.Config
