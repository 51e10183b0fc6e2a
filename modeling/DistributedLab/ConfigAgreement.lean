import DistributedLab.ConfigViews
import DistributedLab.PaxosTransfer

/-!
# Agreement from view to view

The members that vote on an instance are those of the view before it, so that all nodes
use one member list for an instance is itself a consequence of agreement: the induction
is on the instance.  With it a decide request finds its acceptor where the sender left
it.  The acceptor voted for the value, so it is at most one instance behind, and since
then it can only have accepted the same value again.

What makes this fail is a lost decide request.  An acceptor that has missed one grants
requests for the instance after the next, votes, and aborts when it is told the outcome.
`lost_decide_aborts` is the shortest such run.

`config::heartbeat` can be called at any time.  Its `VERIFY` is guarded by `isrunning`,
which waits for the mutex that `run` holds and so finds the proposer stable.
-/

namespace DistributedLab.Config

open Transition TextStream Paxos

/-! ### The steps considered -/

/-- Nothing has been logged at `p`, and nothing sent from it. -/
def Cluster.Untouched (s : Cluster) (p : String) : Prop :=
  (s.acc p).file = [] ∧ (s.pro p).xid = 0

/-- Node names are words, and no node is rebooted. -/
def Unrebooted (s : Cluster) : Action → Prop
  | .joinreq _ m => IsWord m
  | .start p _ => IsWord p ∧ s.Untouched p
  | _ => True

/-- Every granted request is for the next instance, proposal numbers do not wrap, and a restored
    log is ahead of the node. -/
def Orderly (s : Cluster) : Action → Prop
  | .paxos action => InOrder s.paxos action
  | .run p _ => (s.acc p).nH.n + 1 < unsignedBound ∧ (s.pro p).myN.n + 1 < unsignedBound
  | .restore p log _ => (s.acc p).instanceH < lastInstance log
  | _ => True

/-- No `VERIFY` fails when a decide request or a heartbeat is delivered. -/
structure Cluster.NoAbort (s : Cluster) : Prop where
  decide : ∀ {call arg}, call ∈ s.paxos.calls → call.req = .decide arg → s.up call.dst = true →
    (s.acc call.dst).decidereq arg ≠ none
  heartbeat : ∀ {beat running}, beat ∈ s.beats → s.up beat.dst = true →
    isrunning (s.pro beat.dst) = some running →
    (s.peer beat.dst).heartbeat running beat.vid ≠ none

/-! ### The invariant -/

/-- Some `run` for `inst` was called with the member list `nodes`. -/
def Cluster.RunsWith (s : Cluster) (inst : Nat) (nodes : List String) : Prop :=
  ∃ newv, (inst, nodes, newv) ∈ s.paxos.runs

/-- The members that vote on an instance are those of the view before. -/
def Cluster.VotesInView (s : Cluster) : Prop :=
  ∀ inst nodes, s.RunsWith inst nodes → ∃ p i, i ≤ (s.acc p).instanceH ∧
    inst = (i + 1) % unsignedBound ∧ nodes = getView (s.acc p) i

structure Cluster.Settled (first : String) (s : Cluster) : Prop where
  formed : s.Formed
  ordered : s.paxos.Ordered s.RunsWith first
  mirrored : ∀ p, (s.acc p).Mirrored
  /-- A log on its way was the file of an acceptor. -/
  logs : ∀ {m log}, (m, log) ∈ s.logs → ∃ a : Acceptor, a.file = log ∧ 1 ≤ a.instanceH ∧
    a.Complete ViewText ∧ a.Mirrored ∧ a.Founded s.RunsWith first s.paxos.replies
  views : s.VotesInView

section Agreement

variable {first : String} {s : Cluster}

theorem instanceH_lt_of_complete {Q : String → Prop} {a : Acceptor} (h : a.Complete Q) :
    a.instanceH < unsignedBound := by
  rcases Nat.eq_zero_or_pos a.instanceH with hzero | hpos
  · rw [hzero]
    decide
  · obtain ⟨records, -, hrecords, hdecisions⟩ := h.file
    have hlast : (a.instanceH, a.value a.instanceH) ∈ decisions records := by
      rw [hdecisions]
      exact List.mem_map_of_mem (List.mem_range'_1.mpr ⟨hpos, by omega⟩)
    exact (hrecords _ (mem_of_mem_decisions hlast)).1.2.1

theorem getView_zero {Q : String → Prop} {a : Acceptor} (h : a.Complete Q) : getView a 0 = [] := by
  rw [getView, Acceptor.value, h.zero, Option.getD_none, members_empty]

theorem Cluster.Settled.complete (h : s.Settled first) (p : String) :
    (s.acc p).Complete ViewText :=
  h.formed.recorded.chronicled.acceptor p

/-- The member list of a run that is not for instance 0. -/
theorem Cluster.VotesInView.view_before (h : s.VotesInView)
    (hcomplete : ∀ p, (s.acc p).Complete ViewText) {inst : Nat} {nodes : List String}
    (hinst : 1 ≤ inst) (hnodes : s.RunsWith inst nodes) :
    ∃ p i, inst = i + 1 ∧ i ≤ (s.acc p).instanceH ∧ nodes = getView (s.acc p) i := by
  obtain ⟨p, i, hle, hmod, hview⟩ := h inst nodes hnodes
  have hbound := instanceH_lt_of_complete (hcomplete p)
  refine ⟨p, i, ?_, hle, hview⟩
  rcases Nat.lt_or_ge (i + 1) unsignedBound with hlt | hge
  · rwa [Nat.mod_eq_of_lt hlt] at hmod
  · have heq : i + 1 = unsignedBound := by omega
    rw [heq, Nat.mod_self] at hmod
    omega

/-- Nobody votes on instance 1. -/
theorem Cluster.VotesInView.not_chosen_one (h : s.VotesInView)
    (hcomplete : ∀ p, (s.acc p).Complete ViewText) {replies : List Reply} (v : String) :
    ¬ ChosenIn s.RunsWith replies 1 v := by
  rintro ⟨n, q, ⟨nodes, hnodes, hmajority⟩, -⟩
  obtain ⟨p, i, hinst, -, hview⟩ := h.view_before hcomplete (Nat.le_refl 1) hnodes
  obtain rfl : i = 0 := by omega
  rw [hview, getView_zero (hcomplete p)] at hmajority
  simp [majority] at hmajority

/-- Agreement on a view gives one member list for the instance after it. -/
theorem Cluster.Settled.members_eq (h : s.Settled first) {inst : Nat} {nodes nodes' : List String}
    (hinst : 1 < inst) (hnodes : s.RunsWith inst nodes) (hnodes' : s.RunsWith inst nodes')
    (hagree : ∀ {v v' : String}, Decided s.RunsWith first s.paxos.replies (inst - 1) v →
      Decided s.RunsWith first s.paxos.replies (inst - 1) v' → v = v') : nodes = nodes' := by
  obtain ⟨p, i, rfl, hle, rfl⟩ := h.views.view_before h.complete (Nat.le_of_lt hinst) hnodes
  obtain ⟨q, j, hj, hle', rfl⟩ := h.views.view_before h.complete (Nat.le_of_lt hinst) hnodes'
  obtain rfl : i = j := by omega
  obtain ⟨w, hw⟩ := Option.ne_none_iff_exists'.mp ((h.complete p).defined i (by omega) hle)
  obtain ⟨w', hw'⟩ := Option.ne_none_iff_exists'.mp ((h.complete q).defined i (by omega) hle')
  have hsame : w = w' :=
    hagree ((h.ordered.acceptor p).decided hw) ((h.ordered.acceptor q).decided hw')
  rw [getView, getView, Acceptor.value, Acceptor.value, hw, hw', hsame]

/-- **Agreement.**  Two values decided for one instance are equal. -/
theorem Cluster.Settled.decided_unique (h : s.Settled first) {inst : Nat} :
    ∀ {v v' : String}, Decided s.RunsWith first s.paxos.replies inst v →
      Decided s.RunsWith first s.paxos.replies inst v' → v = v' := by
  induction inst using Nat.strongRecOn with
  | _ inst ih =>
      intro v v'
      refine h.ordered.network.decided_unique fun hlate nodes nodes' hnodes hnodes' => ?_
      exact h.members_eq hlate hnodes hnodes' (ih (inst - 1) (by omega))

/-- **A decide request is safe.**  Its acceptor has voted for the value, and in the same
    instance it can only have voted for it again. -/
theorem Cluster.Settled.decidereq_ne_none (h : s.Settled first) {call : Call} {arg : DecideArg}
    (hcall : call ∈ s.paxos.calls) (hreq : call.req = .decide arg) :
    (s.acc call.dst).decidereq arg ≠ none := by
  have hnetwork := h.ordered.network
  have hacceptor : (s.acc call.dst).Summarises s.RunsWith first s.paxos.replies call.dst :=
    h.ordered.acceptor call.dst
  obtain ⟨n, q, hq, hvoted, hdst⟩ := hnetwork.decide hcall hreq
  have hvote := hvoted call.dst hdst
  obtain ⟨⟨res, hpromised⟩, -, -, hnumber⟩ := hnetwork.of_voted hvote
  have hnumber : 1 ≤ n.n := hnumber
  have hpos : 1 ≤ arg.inst := hnetwork.promise_pos hpromised
  have hbound : arg.inst < unsignedBound := by
    have hlegible := h.formed.recorded.chronicled.call call hcall
    rw [hreq] at hlegible
    exact hlegible.1
  obtain ⟨hle, hlast⟩ := hacceptor.voted_le hvote
  have hle : arg.inst ≤ (s.acc call.dst).instanceH + 1 := hle
  unfold Acceptor.decidereq
  split
  · rename_i hnext
    -- it is the next instance, and its number is not the wrapped one
    have hinst : arg.inst = (s.acc call.dst).instanceH + 1 := by
      have hlt := instanceH_lt_of_complete (h.complete call.dst)
      rcases Nat.lt_or_ge ((s.acc call.dst).instanceH + 1) unsignedBound with hsmall | hlarge
      · rwa [Nat.mod_eq_of_lt hsmall] at hnext
      · have hwrap : (s.acc call.dst).instanceH + 1 = unsignedBound := by omega
        rw [hwrap, Nat.mod_self] at hnext
        omega
    have hlate : 1 < arg.inst := by
      rcases Nat.lt_or_ge 1 arg.inst with hlate | hone
      · exact hlate
      · have heq : arg.inst = 1 := by omega
        rw [heq] at hq hvoted
        exact absurd ⟨n, q, hq, hvoted⟩ (h.views.not_chosen_one h.complete arg.v)
    have hvoteLe : n ≤ (s.acc call.dst).nA := hlast hinst
    obtain ⟨d, hheld⟩ := hacceptor.held.resolve_left fun hnone => by
      have := PropT.n_le_of_le hvoteLe
      omega
    rw [← hinst] at hheld
    have hsound := hnetwork.sound fun nodes nodes' hnodes hnodes' =>
      h.members_eq hlate hnodes hnodes' h.decided_unique
    have hsame : (s.acc call.dst).vA = arg.v := by
      rcases eq_or_lt_of_le hvoteLe with heq | hlt
      · rw [← heq] at hheld
        exact hsound.functional (hsound.voted_proposed hheld) (hsound.voted_proposed hvote)
      · exact hsound.proposed_above ⟨q, hq, hvoted⟩ (hsound.voted_proposed hheld) hlt
    rw [if_pos hsame]
    exact Option.some_ne_none _
  · rename_i hnext
    have hold : arg.inst ≤ (s.acc call.dst).instanceH := by
      by_contra hahead
      have hinst : arg.inst = (s.acc call.dst).instanceH + 1 := by omega
      rw [← hinst, Nat.mod_eq_of_lt hbound] at hnext
      exact hnext rfl
    rw [if_pos hold]
    exact Option.some_ne_none _

end Agreement

/-! ### Preservation -/

section Preservation

variable {first : String} {s t : Cluster} {p : String} {action : Action}

theorem Cluster.mem_logs_of_step {log : List Char} {junk : Nat}
    (h : s.step first (.restore p log junk) = some t) : (p, log) ∈ s.logs := by
  simp only [Cluster.step, Option.ite_none_right_eq_some] at h
  exact h.1.2.2

/-- A log that is ahead of a node continues its history. -/
theorem Cluster.Settled.continuing (h : s.Settled first) (hstep : s.step first action = some t)
    (hnamed : Unrebooted s action) (horderly : Orderly s action) : Continuing s action := by
  cases action with
  | joinreq p m => exact hnamed
  | start p junk => exact hnamed.1
  | restore p log junk =>
      refine ⟨Nat.le_of_lt horderly, fun i hi => ?_⟩
      obtain ⟨a, rfl, hpos, hcomplete, -, hfounded⟩ := h.logs (Cluster.mem_logs_of_step hstep)
      have hlast : (s.acc p).instanceH < a.instanceH := by
        rw [← lastInstance_of_chronicle hcomplete.file]
        exact horderly
      obtain ⟨read, hread⟩ :=
        Chronicle.logread_isSome (a := Acceptor.blank "" a.file) hcomplete.file 0
      have hreads := Acceptor.reads_of_logread (a := Acceptor.blank "" a.file) hcomplete.file hread
      rw [logValue, hread, Option.bind_some]
      rcases Nat.eq_zero_or_pos i with rfl | hi1
      · rw [hreads.kept 0 (.inl rfl)]
        exact (h.complete p).zero.symm
      · obtain ⟨v, hv⟩ := Option.ne_none_iff_exists'.mp ((h.complete p).defined i hi1 hi)
        obtain ⟨w, hw⟩ := Option.ne_none_iff_exists'.mp (hcomplete.defined i hi1 (by omega))
        rw [hreads.read i hi1 (by omega), hv, Acceptor.value, hw, Option.getD_some]
        exact congrArg some
          (h.decided_unique (hfounded.decided hw) ((h.ordered.acceptor p).decided hv))
  | _ => trivial

/-- A node over whose empty log a process is started has decided nothing. -/
theorem Cluster.Settled.instanceH_of_untouched (h : s.Settled first) (hp : s.Untouched p) :
    (s.acc p).instanceH = 0 := by
  obtain ⟨records, htext, -, hdecisions⟩ := (h.complete p).file
  obtain rfl := logText_eq_nil (htext.symm.trans hp.1)
  simpa [decisions] using hdecisions.symm

/-- Decided views stay. -/
theorem Cluster.Settled.keeps (h : s.Settled first) (hmove : s.Move first action t)
    (hformed : t.Formed) (hnamed : Unrebooted s action) (hcontinuing : Continuing s action)
    (p : String) : Keeps (s.acc p) (t.acc p) := by
  cases hmove.acc_change p with
  | progress hprogress hnext => exact keeps_of_progress hprogress
  | restored hlog hacc =>
      exact h.formed.recorded.keeps_restore hlog hacc hcontinuing.1 hcontinuing.2
  | unreadable hlog hacc => exact absurd hacc (h.formed.recorded.restore_ne_none hlog _)
  | started hacc =>
      have hzero := h.instanceH_of_untouched hnamed.2
      refine ⟨hzero ▸ Nat.zero_le _, fun i hi => ?_⟩
      obtain rfl : i = 0 := by omega
      exact (hformed.recorded.chronicled.acceptor p).zero.trans (h.complete p).zero.symm

theorem Cluster.Settled.views_move (h : s.Settled first) (hmove : s.Move first action t)
    (hkeeps : ∀ p, Keeps (s.acc p) (t.acc p)) : t.VotesInView := by
  rintro inst nodes ⟨newv, hrun⟩
  rcases hmove.runs_cases hrun with hold | ⟨p, proposal, hmem, heq⟩
  · obtain ⟨p, i, hle, hinst, hview⟩ := h.views inst nodes ⟨newv, hold⟩
    exact ⟨p, i, hle.trans (hkeeps p).le, hinst, ((hkeeps p).getView hle).symm ▸ hview⟩
  · obtain ⟨rfl, rfl, rfl⟩ := heq
    obtain ⟨-, i, hle, hinst, hview⟩ := (h.formed.sound p).proposals proposal hmem
    exact ⟨p, i, hle.trans (hkeeps p).le, hinst, ((hkeeps p).getView hle).symm ▸ hview⟩

/-- A promise or a vote of a node that has decided nothing would be for instance 1 and be in its
    log. -/
theorem Cluster.Settled.not_promised_of_untouched (h : s.Settled first) (hp : s.Untouched p)
    {arg : PrepareArg} {res : PrepareRes} : ¬ Promised s.paxos.replies p arg res := by
  intro hpromised
  have hzero : (s.paxos.acc p).instanceH = 0 := h.instanceH_of_untouched hp
  have hround : (s.paxos.acc p).round = noRound := (h.mirrored p).round_of_empty hp.1
  obtain ⟨hle, hlast⟩ := (h.ordered.acceptor p).promised_le hpromised
  have hpos := h.ordered.network.promise_pos hpromised
  have hnumber : arg.n.n ≤ (s.paxos.acc p).nH.n := PropT.n_le_of_le (hlast (by omega))
  have hseen : (s.paxos.acc p).nH.n = 0 := Acceptor.nH_n_of_round (b := Acceptor.blank "" []) hround
  obtain ⟨call, hreply, -, hreq, -⟩ := hpromised
  have := h.ordered.network.prepare (h.ordered.network.reply_call _ hreply) hreq
  omega

/-- The acceptor of a process started over an empty log. -/
theorem Cluster.Settled.summarises_new (h : s.Settled first) (hp : s.Untouched p) {junk : Nat}
    {acc : Acceptor} (hacc : Acceptor.new (p == first) p p (s.acc p).file junk = some acc) :
    acc.Summarises s.RunsWith first s.paxos.replies p := by
  have hread : (Acceptor.blank p []).logread junk = some (Acceptor.blank p []) :=
    Acceptor.logread_readable (fun _ h => absurd h List.not_mem_nil) rfl junk
  rw [hp.1, Acceptor.new, hread, Option.map_some, Option.some.injEq] at hacc
  subst hacc
  refine ⟨⟨.inl ?_, .inl ?_, fun {inst v} hv => ?_⟩,
    fun hpromised => absurd hpromised (h.not_promised_of_untouched hp), fun hvoted => ?_⟩
  · unfold Acceptor.logFirst
    split <;> exact ⟨rfl, rfl⟩
  · unfold Acceptor.logFirst
    split <;> rfl
  · unfold Acceptor.logFirst at hv
    split at hv
    · rename_i hlog
      have hfirst : p = first := eq_of_beq hlog.2
      change Function.update (fun _ => none) 1 (some p) inst = some v at hv
      by_cases hone : inst = 1
      · rw [hone, Function.update_self, Option.some.injEq] at hv
        exact .first hone.le (hv ▸ hfirst)
      · rw [Function.update_of_ne hone] at hv
        cases hv
    · cases hv
  · obtain ⟨⟨res, hpromised⟩, -⟩ := h.ordered.network.of_voted hvoted
    exact absurd hpromised (h.not_promised_of_untouched hp)

theorem Cluster.Settled.ordered_boot (h : s.Settled first) (hp : s.Untouched p) {junk : Nat}
    {acc : Acceptor} (hacc : Acceptor.new (p == first) p p (s.acc p).file junk = some acc) :
    (s.boot p acc).paxos.Ordered s.RunsWith first := by
  have hwired : (s.paxos.setPro p (newProposer p (s.pro p).xid)).Wired :=
    h.ordered.wired.setPro (h.ordered.wired.owner p).symm (Nat.le_refl _) fun r hr => by cases hr
  have hsilent : ∀ call ∈ s.paxos.calls, call.clt ≠ p := by
    rintro call hcall rfl
    have hlt := h.ordered.wired.xid_lt call hcall
    have hzero : (s.paxos.pro call.clt).xid = 0 := hp.2
    omega
  have hset : (s.paxos.setPro p (newProposer p (s.pro p).xid)).Ordered s.RunsWith first := by
    refine h.ordered.setPro hwired (.inl hsilent) (fun {call arg r} _ _ _ hr _ => ?_)
      fun r hr => ?_
    · cases hr
    · cases hr
  exact (hset.setAcc (h.summarises_new hp hacc)).congr (s.accs_boot p acc) (s.pros_boot p acc)
    rfl rfl

theorem Cluster.Settled.ordered_move (h : s.Settled first) (hmove : s.Move first action t)
    (hnamed : Unrebooted s action) (horderly : Orderly s action)
    (hone : ∀ v, ¬ ChosenIn t.RunsWith s.paxos.replies 1 v) :
    t.paxos.Ordered t.RunsWith first := by
  have hordered : s.paxos.Ordered t.RunsWith first := by
    refine h.ordered.mono_members fun inst nodes hnodes => ?_
    obtain ⟨newv, hrun⟩ := hnodes
    exact ⟨newv, hmove.runs_subset _ hrun⟩
  cases hmove with
  | @paxos action next hrun hmove =>
      rw [Cluster.paxos_withPaxos]
      refine hordered.move hmove ?_ horderly ?_ fun _ _ => hone
      · intro p inst curNodes newv heq
        exact absurd heq (hrun p inst curNodes newv)
      · cases action with
        | run p inst curNodes newv => exact absurd rfl (hrun p inst curNodes newv)
        | _ => trivial
  | @run p proposal next hup hmem hmove =>
      refine hordered.move hmove ?_ trivial ?_ fun _ _ => hone
      · intro q inst curNodes newv heq
        cases heq
        cases hmove with
        | run hnone hinst => exact ⟨proposal.newv, List.mem_cons_self⟩
      · refine ⟨fun hempty => ?_, horderly⟩
        obtain ⟨⟨-, hmembers, -⟩, -⟩ := (h.formed.sound p).proposals proposal hmem
        rw [hempty] at hmembers
        exact hmembers members_empty
  | peer hup hstep ht =>
      rcases ht with rfl | rfl
      · exact hordered
      · exact hordered.setDown _
  | joinreq hup hm => exact hordered
  | dump hmember => exact hordered
  | @restored p log junk acc hlog hacc =>
      obtain ⟨a, rfl, hpos, hcomplete, hmirrored, hfounded⟩ := h.logs hlog
      have hlast := (h.formed.recorded.reads_restore hlog hacc).2.1
      have hlater := (h.ordered.acceptor p).later (lt_of_lt_of_eq horderly hlast.symm)
        (hfounded.restore (h.ordered.acceptor p).toFounded h.ordered.network hcomplete hpos
          hmirrored hacc)
      exact (h.ordered.setAcc hlater).congr rfl rfl rfl rfl
  | unreadable hlog hacc => exact absurd hacc (h.formed.recorded.restore_ne_none hlog _)
  | ping => exact hordered
  | heartbeat => exact hordered
  | down => exact hordered.setDown _
  | started hacc hnext hvid ht =>
      have hboot := h.ordered_boot hnamed.2 hacc
      rcases ht with rfl | rfl
      · exact hboot
      · exact hboot.setDown _

theorem Cluster.Settled.mirrored_move (h : s.Settled first) (hmove : s.Move first action t)
    (hnamed : Unrebooted s action) (p : String) : (t.acc p).Mirrored := by
  have hpaxos : ∀ {action next}, s.paxos.Move action next → (next.acc p).Mirrored := fun hmove =>
    h.formed.recorded.chronicled.mirrored h.ordered.wired hmove (fun _ hv => hv.1) h.mirrored p
  cases hmove with
  | paxos hrun hmove =>
      rw [Cluster.acc_withPaxos]
      exact hpaxos hmove
  | run hup hmem hmove => exact hpaxos hmove
  | peer hup hstep ht =>
      rw [ht.acc]
      exact h.mirrored p
  | restored hlog hacc =>
      rw [Cluster.acc_setPeer, Cluster.acc_setAcc]
      split
      · obtain ⟨a, rfl, hpos, -, hmirrored, -⟩ := h.logs hlog
        exact (hmirrored.restore hpos hacc).2
      · exact h.mirrored p
  | unreadable hlog hacc => exact absurd hacc (h.formed.recorded.restore_ne_none hlog _)
  | down =>
      rw [Cluster.acc_setDown]
      exact h.mirrored p
  | started hacc hnext hvid ht =>
      rw [ht.acc, Cluster.acc_setPeer, Cluster.acc_boot]
      split
      · rw [hnamed.2.1] at hacc
        exact Acceptor.mirrored_new hacc (newline_not_mem_of_isWord hnamed.1)
      · exact h.mirrored p
  | _ => exact h.mirrored p

theorem Cluster.Settled.logs_move (h : s.Settled first) (hmove : s.Move first action t)
    {m : String} {log : List Char} (hlog : (m, log) ∈ t.logs) :
    ∃ a : Acceptor, a.file = log ∧ 1 ≤ a.instanceH ∧ a.Complete ViewText ∧ a.Mirrored ∧
      a.Founded t.RunsWith first t.paxos.replies := by
  have hfounded : ∀ {a : Acceptor}, a.Founded s.RunsWith first s.paxos.replies →
      a.Founded t.RunsWith first t.paxos.replies := fun ha => by
    refine (ha.mono hmove.replies_subset).mono_members fun inst nodes hnodes => ?_
    obtain ⟨newv, hrun⟩ := hnodes
    exact ⟨newv, hmove.runs_subset _ hrun⟩
  rcases hmove.logs_cases hlog with hold | ⟨p, vid, hmember, rfl⟩
  · obtain ⟨a, hfile, hpos, hcomplete, hmirrored, ha⟩ := h.logs hold
    exact ⟨a, hfile, hpos, hcomplete, hmirrored, hfounded ha⟩
  · have hcomplete := h.complete p
    refine ⟨s.acc p, ?_, ?_, hcomplete, h.mirrored p, hfounded (h.ordered.acceptor p).toFounded⟩
    · rw [Acceptor.dump, hcomplete.file.dump]
    · exact one_le_instanceH_of_ismember hcomplete hmember

theorem Cluster.Settled.step (h : s.Settled first) (hstep : s.step first action = some t)
    (hnamed : Unrebooted s action) (horderly : Orderly s action) : t.Settled first := by
  have hmove := Cluster.move_of_step hstep
  have hcontinuing := h.continuing hstep hnamed horderly
  have hformed := h.formed.move hmove hcontinuing
  have hviews : t.VotesInView := h.views_move hmove (h.keeps hmove hformed hnamed hcontinuing)
  exact
    { formed := hformed
      ordered := h.ordered_move hmove hnamed horderly
        (hviews.not_chosen_one hformed.recorded.chronicled.acceptor)
      mirrored := h.mirrored_move hmove hnamed
      logs := h.logs_move hmove
      views := hviews }

theorem Cluster.settled_initial (first : String) : (Cluster.initial first).Settled first where
  formed := ⟨Cluster.recorded_initial _ first, fun p => Peer.sound_blank rfl, nofun⟩
  ordered :=
    { wired := (Cluster.recorded_initial ViewText first).wired
      acceptor := fun d =>
        { held := .inl ⟨rfl, rfl⟩
          bounded := .inl rfl
          decided := nofun
          promised_le := fun ⟨_, hmem, _⟩ => by cases hmem
          voted_le := fun ⟨_, hmem, _⟩ => by cases hmem }
      network :=
        { reply_call := nofun
          prepare := nofun
          accept := nofun
          decide := nofun
          unique := nofun
          old := nofun
          promise_pos := fun ⟨_, hmem, _⟩ => by cases hmem
          promise := fun ⟨_, hmem, _⟩ => by cases hmem }
      numbered := ⟨nofun, nofun⟩
      run := nofun }
  mirrored := fun p => by
    refine ⟨[], rfl, nofun, fun b hb => ?_⟩
    rcases hb with hpos | hround
    · cases hpos
    · exact hround
  logs := nofun
  views := fun _ _ ⟨_, hrun⟩ => by cases hrun

end Preservation

/-! ### The theorem -/

/-- `isrunning` returns only when no run is in progress. -/
theorem eq_false_of_isrunning {pro : Proposer} {running : Bool}
    (h : isrunning pro = some running) : running = false := by
  unfold isrunning at h
  cases hrun : pro.run with
  | none =>
      rw [hrun] at h
      exact (Option.some.inj h).symm
  | some r =>
      rw [hrun] at h
      cases h

/-- **No peer message aborts a server.**  In every run of the cluster without reboots in which
    every granted request is for the next instance, proposal numbers do not wrap and restored
    logs are ahead of the node, no delivery of a decide request or a heartbeat fails a
    `VERIFY`. -/
theorem noAbort_of_orderly {first : String} {s : Cluster}
    (h : (views first).Reach (fun s action => Unrebooted s action ∧ Orderly s action) s) :
    s.NoAbort := by
  have hsettled : s.Settled first := by
    refine h.invariant (P := Cluster.Settled first) ?_ ?_
    · rintro start rfl
      exact Cluster.settled_initial first
    · rintro state next action hsettled ⟨hnamed, horderly⟩ hstep
      exact hsettled.step hstep hnamed horderly
  refine ⟨fun hcall hreq _ => hsettled.decidereq_ne_none hcall hreq, fun {beat running} _ _ h => ?_⟩
  rw [eq_false_of_isrunning h, Peer.heartbeat]
  split
  · exact Option.some_ne_none _
  · exact Option.some_ne_none _

instance (s : Cluster) : (action : Action) → Decidable (Unrebooted s action)
  | .joinreq _ m => inferInstanceAs (Decidable (IsWord m))
  | .start p _ => inferInstanceAs (Decidable (IsWord p ∧ (s.acc p).file = [] ∧ (s.pro p).xid = 0))
  | .restore .. | .paxos _ | .run .. | .paxosCommit .. | .commitChange .. | .add .. | .dump ..
  | .joined _ | .wake _ | .ping _ | .pong _ | .fail _ | .heartbeat _ | .crash _ =>
      inferInstanceAs (Decidable True)

instance (s : Cluster) : (action : Action) → Decidable (Orderly s action)
  | .paxos action => inferInstanceAs (Decidable (InOrder s.paxos action))
  | .run p _ => inferInstanceAs (Decidable ((s.acc p).nH.n + 1 < unsignedBound ∧
      (s.pro p).myN.n + 1 < unsignedBound))
  | .restore p log _ => inferInstanceAs (Decidable ((s.acc p).instanceH < lastInstance log))
  | .joinreq .. | .start .. | .paxosCommit .. | .commitChange .. | .add .. | .dump .. | .joined _
  | .wake _ | .ping _ | .pong _ | .fail _ | .heartbeat _ | .crash _ =>
      inferInstanceAs (Decidable True)

theorem noAbort_thirdJoins :
    ∃ s, (views "a").Reach (fun s action => Unrebooted s action ∧ Orderly s action) s ∧
      ⟨"a", 8, "b", .decide ⟨3, "a b c "⟩⟩ ∈ s.paxos.calls ∧ s.NoAbort := by
  obtain ⟨s, hreach, hseen⟩ : ∃ s,
      (views "a").Reach (fun s action => Unrebooted s action ∧ Orderly s action) s ∧
      s.paxos.calls.head? = some ⟨"a", 8, "b", .decide ⟨3, "a b c "⟩⟩ :=
    System.Reach.of_exec (fun s action => decide (Unrebooted s action ∧ Orderly s action))
      (secondJoins ++ thirdJoins) rfl (fun _ _ h => of_decide_eq_true h) (by decide +kernel)
  exact ⟨s, hreach, List.mem_of_mem_head? hseen, noAbort_of_orderly hreach⟩

/-! ### A lost decide request -/

/-- `c` joins as in `thirdJoins`, but the decide request to `b` is lost.  `b`, still in view 2,
    answers the heartbeat of `a` with an error; `a` runs to remove it and asks it all the
    same. -/
def lostDecide : List Action :=
  let n : PropT := ⟨2, "a"⟩
  let n' : PropT := ⟨3, "a"⟩
  let v := "a b c "
  thirdVotes ++
  [.paxos (.skip "a"), .paxos (.next "a"), .paxosCommit "a" (3, v), .commitChange "a" 3,
   .wake "a", .fail "a", .run "a" ⟨4, ["a", "b", "c"], "a c "⟩] ++
  Action.rpc ⟨"a", 8, "a", .prepare ⟨4, n'⟩⟩ (granted "a") ++
  Action.rpc ⟨"a", 9, "b", .prepare ⟨4, n'⟩⟩ (.prepare { accept := true, nA := n, vA := v }) ++
  [.paxos (.skip "a"), .paxos (.next "a")] ++
  Action.rpc ⟨"a", 10, "a", .accept ⟨4, n', v⟩⟩ (.accept true) ++
  Action.rpc ⟨"a", 11, "b", .accept ⟨4, n', v⟩⟩ (.accept true) ++ [.paxos (.next "a")] ++
  Action.rpc ⟨"a", 12, "a", .decide ⟨4, v⟩⟩ .decide ++ [.paxos (.call "a")]

/-- The decide request for instance 4 finds `b` at instance 2. -/
theorem lost_decide_aborts :
    ¬ ∀ first s, (views first).Reach Unrebooted s → s.NoAbort := by
  intro hclaim
  obtain ⟨s, hreach, hseen⟩ : ∃ s, (views "a").Reach Unrebooted s ∧
      (s.paxos.calls.head?, s.up "b", ((s.acc "b").decidereq ⟨4, "a b c "⟩).isSome) =
        (some ⟨"a", 13, "b", .decide ⟨4, "a b c "⟩⟩, true, false) :=
    System.Reach.of_exec (fun s action => decide (Unrebooted s action))
      (secondJoins ++ lostDecide) rfl (fun _ _ h => of_decide_eq_true h) (by decide +kernel)
  obtain ⟨hcall, hup, hbehind⟩ : s.paxos.calls.head? = _ ∧ s.up "b" = _ ∧ _ := by
    simpa only [Prod.mk.injEq] using hseen
  exact (hclaim "a" s hreach).decide (List.mem_of_mem_head? hcall) rfl hup
    (Option.isSome_eq_false_iff.mp hbehind |> Option.isNone_iff_eq_none.mp)

end DistributedLab.Config
