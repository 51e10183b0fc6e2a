import DistributedLab.ConfigHistory
import Mathlib.Data.List.Nodup

/-!
# Well-formed views

A view is proposed by `add`, which appends a joiner to `mems`, or by `remove_wo`, which
leaves a member out.  `joinreq` has made sure that the joiner is no member of view
`vid_commit`, under another mutex and possibly long before; what makes the check count
is that `add` goes on only if that view is still `myvid`, and that the members of a
decided view do not change.  Likewise the heartbeater never pings its own node and
removes a member only if the view in which it found itself is still `myvid`, so its own
node is left.  Paxos then decides a proposed value, or spreads a decided one.

All this needs decided views that stay as they are, which a restored log need not
respect.  In `gap_commits_empty_view` a log restored under a run has left a gap in the log
of a node.  The node that restores that log has no value for the missing instance, and
hands out the empty string for it.
-/

namespace DistributedLab.Config

open Transition TextStream Paxos

/-! ### Values in use -/

/-- A value that some node has proposed, accepted or committed. -/
inductive Cluster.Uses (s : Cluster) : String → Prop
  | proposed {inst : Nat} {curNodes : List String} {newv : String}
      (h : (inst, curNodes, newv) ∈ s.paxos.runs) : Uses s newv
  | requested {call : Call} {arg : AcceptArg} (h : call ∈ s.paxos.calls)
      (hreq : call.req = .accept arg) : Uses s arg.v
  | accepted {p : String} (h : (s.acc p).vA ≠ "") : Uses s (s.acc p).vA
  | committed {p : String} {inst : Nat} {v : String} (h : (s.acc p).values inst = some v) :
      Uses s v

/-- The value decodes to a view with at least one member and no member twice. -/
def IsView (v : String) : Prop := members v ≠ [] ∧ (members v).Nodup

/-- What the log says about an instance. -/
def logValue (log : List Char) (inst : Nat) : Option String :=
  ((Acceptor.blank "" log).logread 0).bind fun acc => acc.values inst

/-- The names of nodes that join or start are words. -/
def Action.Named : Action → Prop
  | .joinreq _ m => IsWord m
  | .start p _ => IsWord p
  | _ => True

instance : (action : Action) → Decidable action.Named
  | .joinreq _ m => inferInstanceAs (Decidable (IsWord m))
  | .start p _ => inferInstanceAs (Decidable (IsWord p))
  | .restore .. | .paxos _ | .run .. | .paxosCommit .. | .commitChange .. | .add .. | .dump ..
  | .joined _ | .wake _ | .ping _ | .pong _ | .fail _ | .heartbeat _ | .crash _ =>
      inferInstanceAs (Decidable True)

/-- Node names are words, and a restored log continues the history of the node. -/
def Continuing (s : Cluster) : Action → Prop
  | .joinreq _ m => IsWord m
  | .start p _ => IsWord p
  | .restore p log _ => (s.acc p).instanceH ≤ lastInstance log ∧
      ∀ i, i ≤ (s.acc p).instanceH → logValue log i = (s.acc p).values i
  | _ => True

instance (s : Cluster) : (action : Action) → Decidable (Continuing s action)
  | .joinreq _ m => inferInstanceAs (Decidable (IsWord m))
  | .start p _ => inferInstanceAs (Decidable (IsWord p))
  | .restore p log _ => inferInstanceAs (Decidable ((s.acc p).instanceH ≤ lastInstance log ∧
      ∀ i, i ≤ (s.acc p).instanceH → logValue log i = (s.acc p).values i))
  | .paxos _ | .run .. | .paxosCommit .. | .commitChange .. | .add .. | .dump .. | .joined _
  | .wake _ | .ping _ | .pong _ | .fail _ | .heartbeat _ | .crash _ =>
      inferInstanceAs (Decidable True)

/-- The text of a view: what `value` writes for words, each once. -/
def ViewText (v : String) : Prop := OneLine v ∧ IsView v

theorem viewText_value {view : List String} (hwords : ∀ m ∈ view, IsWord m) (hne : view ≠ [])
    (hnodup : view.Nodup) : ViewText (value view) := by
  refine ⟨oneLine_value hwords, ?_, ?_⟩
  · rwa [members_value hwords]
  · rwa [members_value hwords]

theorem viewText_word {m : String} (h : IsWord m) : ViewText m := by
  refine ⟨newline_not_mem_of_isWord h, ?_, ?_⟩
  · rw [members_word h]
    exact List.cons_ne_nil _ _
  · rw [members_word h]
    exact List.nodup_singleton m

/-! ### One config module -/

/-- What the threads of the config module of `me` hold agrees with the decided views. -/
structure Peer.Sound (acc : Acceptor) (me : String) (c : Peer) : Prop where
  myvid : c.myvid ≤ acc.instanceH
  mems : c.mems = getView acc c.myvid
  upcalls : ∀ upcall ∈ c.upcalls,
    upcall.1 ≤ acc.instanceH ∧ acc.values upcall.1 = some upcall.2
  changes : ∀ vid ∈ c.changes, vid ≤ acc.instanceH
  vidCommit : c.vidCommit ≤ acc.instanceH
  joins : ∀ join ∈ c.joins,
    join.2 ≤ acc.instanceH ∧ join.1 ∉ getView acc join.2 ∧ IsWord join.1
  round : ∀ round, c.round = some round →
    round.vid ≤ acc.instanceH ∧ me ∈ getView acc round.vid ∧ me ∉ round.todo
  proposals : ∀ proposal ∈ c.proposals, ViewText proposal.newv ∧
    ∃ i, i ≤ acc.instanceH ∧ proposal.inst = (i + 1) % unsignedBound ∧
      proposal.curNodes = getView acc i

/-- The decided views of `acc` are decided views of `after`. -/
structure Keeps (acc after : Acceptor) : Prop where
  le : acc.instanceH ≤ after.instanceH
  values : ∀ i, i ≤ acc.instanceH → after.values i = acc.values i

section Peers

variable {acc after : Acceptor} {me first : String} {c next : Peer}

theorem Keeps.getView (h : Keeps acc after) {i : Nat} (hi : i ≤ acc.instanceH) :
    getView after i = getView acc i := by
  rw [Config.getView, Config.getView, Acceptor.value, Acceptor.value, h.values i hi]

theorem keeps_of_progress (h : acc.Progress after) : Keeps acc after := by
  cases h with
  | kept records hundecided hlength hfile hinst hvalues hme =>
      exact ⟨hinst.ge, fun i _ => congrFun hvalues i⟩
  | decided inst v hlt heq =>
      subst heq
      exact ⟨Nat.le_of_lt hlt, fun i hi => Function.update_of_ne (by omega) _ _⟩

/-- Decided views stay what they were. -/
theorem Peer.Sound.keeps (h : c.Sound acc me) (hkeeps : Keeps acc after) : c.Sound after me where
  myvid := h.myvid.trans hkeeps.le
  mems := by
    rw [h.mems, hkeeps.getView h.myvid]
  upcalls := fun upcall hupcall => by
    obtain ⟨hle, hvalue⟩ := h.upcalls upcall hupcall
    exact ⟨hle.trans hkeeps.le, (hkeeps.values _ hle).trans hvalue⟩
  changes := fun vid hvid => (h.changes vid hvid).trans hkeeps.le
  vidCommit := h.vidCommit.trans hkeeps.le
  joins := fun join hjoin => by
    obtain ⟨hle, hnew, hword⟩ := h.joins join hjoin
    rw [hkeeps.getView hle]
    exact ⟨hle.trans hkeeps.le, hnew, hword⟩
  round := fun round hround => by
    obtain ⟨hle, hme, htodo⟩ := h.round round hround
    rw [hkeeps.getView hle]
    exact ⟨hle.trans hkeeps.le, hme, htodo⟩
  proposals := fun proposal hproposal => by
    obtain ⟨hview, i, hle, hinst, hnodes⟩ := h.proposals proposal hproposal
    rw [← hkeeps.getView hle] at hnodes
    exact ⟨hview, i, hle.trans hkeeps.le, hinst, hnodes⟩

/-- A decided view has each member once; view 0 has none. -/
theorem nodup_getView (hcomplete : acc.Complete ViewText) {i : Nat} (hi : i ≤ acc.instanceH) :
    (getView acc i).Nodup := by
  rcases Nat.eq_zero_or_pos i with rfl | hpos
  · rw [getView, Acceptor.value, hcomplete.zero, Option.getD_none, members_empty]
    exact List.nodup_nil
  · exact (hcomplete.value_holds hpos hi).2.2

theorem Peer.Sound.atView (h : c.Sound acc me) {vid : Nat} (hvid : vid ≤ acc.instanceH)
    (hnext : c.AtView vid next) : next.Sound acc me := by
  rcases hnext with rfl | ⟨primary, rfl⟩
  · exact h
  · exact ⟨h.myvid, h.mems, h.upcalls, h.changes, hvid, h.joins, h.round, h.proposals⟩

/-- The joiner is not in `mems`, since the view that `joinreq` looked at is still `myvid`. -/
theorem Peer.Sound.add (h : c.Sound acc me) (hcomplete : acc.Complete ViewText) {m : String}
    {vid : Nat} (hmem : (m, vid) ∈ c.joins) : (c.add m vid).Sound acc me := by
  have hjoins : ∀ join ∈ c.joins.erase (m, vid),
      join.2 ≤ acc.instanceH ∧ join.1 ∉ getView acc join.2 ∧ IsWord join.1 :=
    fun join hjoin => h.joins join (List.mem_of_mem_erase hjoin)
  unfold Peer.add
  dsimp only
  split
  · exact { h with joins := hjoins }
  · rename_i hvid
    have hvid : vid = c.myvid := not_not.mp hvid
    obtain ⟨-, hnew, hword⟩ := h.joins _ hmem
    have hfresh : m ∉ c.mems := by
      rw [h.mems, ← hvid]
      exact hnew
    have hnodup : c.mems.Nodup := h.mems ▸ nodup_getView hcomplete h.myvid
    refine { h with joins := hjoins, proposals := fun proposal hproposal => ?_ }
    rcases List.mem_cons.mp hproposal with rfl | hold
    · refine ⟨?_, c.myvid, h.myvid, rfl, h.mems⟩
      refine viewText_value (fun member hmember => ?_) (List.append_ne_nil_of_right_ne_nil _
        (List.cons_ne_nil m [])) ?_
      · rcases List.mem_append.mp hmember with hmember | hmember
        · rw [h.mems] at hmember
          exact isWord_of_mem_members hmember
        · rw [List.mem_singleton.mp hmember]
          exact hword
      · refine List.nodup_append.mpr ⟨hnodup, List.nodup_singleton m, ?_⟩
        rintro member hmember other hother rfl
        rw [List.mem_singleton.mp hother] at hmember
        exact hfresh hmember
    · exact h.proposals proposal hold

/-- The node that removes another one stays. -/
theorem Peer.Sound.removeWo (h : c.Sound acc me) (hcomplete : acc.Complete ViewText) {m : String}
    (hme : me ∈ c.mems) (hne : me ≠ m) : (c.removeWo m).Sound acc me := by
  have hnodup : c.mems.Nodup := h.mems ▸ nodup_getView hcomplete h.myvid
  refine { h with proposals := fun proposal hproposal => ?_ }
  rcases List.mem_cons.mp hproposal with rfl | hold
  · refine ⟨?_, c.myvid, h.myvid, rfl, h.mems⟩
    refine viewText_value (fun member hmember => ?_) ?_ (hnodup.filter _)
    · have hmember := List.mem_of_mem_filter hmember
      rw [h.mems] at hmember
      exact isWord_of_mem_members hmember
    · refine List.ne_nil_of_mem (List.mem_filter.mpr ⟨hme, ?_⟩)
      exact decide_eq_true hne
  · exact h.proposals proposal hold

theorem not_mem_targets (me : String) (cmems : List String) : me ∉ targets me cmems := by
  unfold targets
  split
  · simp
  · rename_i hne
    rw [List.mem_singleton]
    exact fun heq => hne heq.symm

theorem Peer.Sound.step (h : c.Sound acc me) (hcomplete : acc.Complete ViewText)
    (hstep : c.Step acc me next) : next.Sound acc me := by
  cases hstep with
  | @paxosCommit upcall hmem =>
      obtain ⟨hle, hvalue⟩ := h.upcalls upcall hmem
      refine ⟨hle, ?_, fun other hother => h.upcalls other (List.mem_of_mem_erase hother),
        ?_, h.vidCommit, h.joins, h.round, h.proposals⟩
      · show members upcall.2 = getView acc upcall.1
        rw [getView, Acceptor.value, hvalue, Option.getD_some]
      · exact List.forall_mem_append.mpr ⟨h.changes, List.forall_mem_singleton.mpr hle⟩
  | @commitChange vid next hmem hnext =>
      have herased : ({ c with changes := c.changes.erase vid } : Peer).Sound acc me :=
        { h with changes := fun v hv => h.changes v (List.mem_of_mem_erase hv) }
      exact herased.atView (h.changes vid hmem) hnext
  | @joined next hnext =>
      have hreturned : ({ c with joined := false } : Peer).Sound acc me := { h with }
      exact hreturned.atView h.myvid hnext
  | add hmem => exact h.add hcomplete hmem
  | wake =>
      unfold Peer.wake
      dsimp only
      split
      · rename_i hme
        refine { h with round := fun round hround => ?_ }
        obtain rfl := Option.some.inj hround
        exact ⟨h.myvid, isamember_eq_true.mp hme, not_mem_targets _ _⟩
      · exact h
  | pong hround =>
      refine { h with round := fun round hround' => ?_ }
      obtain rfl := Option.some.inj hround'
      obtain ⟨hle, hme, htodo⟩ := h.round _ hround
      exact ⟨hle, hme, fun hmem => htodo (List.mem_cons_of_mem _ hmem)⟩
  | rested => exact { h with round := by simp }
  | @failed vid m todo hround =>
      have hleft : ({ c with round := none } : Peer).Sound acc me := { h with round := by simp }
      obtain ⟨-, hme, htodo⟩ := h.round _ hround
      unfold Peer.failed
      dsimp only
      split
      · rename_i hvid
        refine hleft.removeWo hcomplete ?_ fun heq => htodo (heq ▸ List.mem_cons_self)
        show me ∈ c.mems
        rw [h.mems, ← hvid]
        exact hme
      · exact hleft

theorem Peer.Sound.reconstruct (h : c.Sound acc me) : (c.reconstruct acc).Sound acc me := by
  rw [Peer.reconstruct_eq]
  split
  · exact { h with myvid := Nat.le_refl _, mems := rfl }
  · exact h

theorem Peer.sound_blank (hzero : acc.values 0 = none) :
    (Peer.blank first).Sound acc me where
  myvid := Nat.zero_le _
  mems := by
    rw [getView, Acceptor.value]
    exact (congrArg (fun v => members (Option.getD v "")) hzero).symm
  upcalls := nofun
  changes := nofun
  vidCommit := Nat.zero_le _
  joins := nofun
  round := nofun
  proposals := nofun

theorem Peer.Sound.change {s : Cluster} {action : Action} (h : c.Sound acc me)
    (hchange : c.Change first me acc after action next) (hcontinuing : Continuing s action)
    (hbefore : acc.Complete ViewText) (hafter : after.Complete ViewText)
    (hrestore : ∀ log junk, action = .restore me log junk → Keeps acc after) :
    next.Sound after me := by
  cases hchange with
  | same hacc => exact h.keeps (keeps_of_progress hacc)
  | decided hacc hlt =>
      have hkept := h.keeps (keeps_of_progress hacc)
      refine { hkept with upcalls := fun upcall hupcall => ?_ }
      rcases List.mem_append.mp hupcall with hold | hnew
      · exact hkept.upcalls upcall hold
      · rw [List.mem_singleton.mp hnew]
        obtain ⟨v, hv⟩ := Option.ne_none_iff_exists'.mp
          (hafter.defined _ (Nat.one_le_of_lt hlt) (Nat.le_refl _))
        refine ⟨Nat.le_refl _, ?_⟩
        rw [hv, Acceptor.value, hv, Option.getD_some]
  | began hacc proposal =>
      have hkept := h.keeps (keeps_of_progress hacc)
      exact { hkept with proposals := fun x hx => hkept.proposals x (List.mem_of_mem_erase hx) }
  | step hacc hstep => exact hacc ▸ h.step hbefore hstep
  | joinreq hacc hm =>
      rw [hacc]
      refine { h with joins := fun join hjoin => ?_ }
      rcases List.mem_cons.mp hjoin with rfl | hold
      · refine ⟨h.vidCommit, fun hmem => ?_, hcontinuing⟩
        rw [ismember, isamember_eq_true.mpr hmem] at hm
        cases hm
      · exact h.joins join hold
  | restored => exact { (h.keeps (hrestore _ _ rfl)).reconstruct with }
  | unreadable hacc => exact h.keeps (hrestore _ _ rfl)
  | started hvid hnext => exact (Peer.sound_blank hafter.zero).reconstruct.atView hvid hnext

end Peers

/-! ### The cluster -/

/-- What the nodes hold agrees with their decided views, and all values in use are views. -/
structure Cluster.Formed (s : Cluster) : Prop where
  recorded : s.Recorded ViewText
  sound : ∀ p, (s.peer p).Sound (s.acc p) p
  runs : ∀ {inst curNodes newv}, (inst, curNodes, newv) ∈ s.paxos.runs → ViewText newv

section Preservation

variable {first : String} {s t : Cluster} {p : String}

/-- What `restore` reads from a log that continues the history of the node. -/
theorem Cluster.Recorded.keeps_restore {Q : String → Prop} (h : s.Recorded Q) {log : List Char}
    {junk : Nat} {acc : Acceptor} (hlog : (p, log) ∈ s.logs)
    (hacc : (s.acc p).restore log junk = some acc) (hle : (s.acc p).instanceH ≤ lastInstance log)
    (hvalues : ∀ i, i ≤ (s.acc p).instanceH → logValue log i = (s.acc p).values i) :
    Keeps (s.acc p) acc := by
  obtain ⟨hcomplete, hlast, -⟩ := h.reads_restore hlog hacc
  obtain ⟨value, last, hpos, hchronicle⟩ := h.logs hlog
  rw [lastInstance_of_chronicle hchronicle] at hle
  refine ⟨by rw [hlast, lastInstance_of_chronicle hchronicle]; exact hle, fun i hi => ?_⟩
  rcases Nat.eq_zero_or_pos i with rfl | hi1
  · exact hcomplete.zero.trans (h.chronicled.acceptor p).zero.symm
  · have hreads := Acceptor.reads_of_logread (a := { s.acc p with file := log }) hchronicle hacc
    obtain ⟨read, hread⟩ := Chronicle.logread_isSome (a := Acceptor.blank "" log) hchronicle 0
    have hlogged := Acceptor.reads_of_logread (a := Acceptor.blank "" log) hchronicle hread
    rw [hreads.read i hi1 (hi.trans hle), ← hvalues i hi, logValue, hread, Option.bind_some,
      hlogged.read i hi1 (hi.trans hle)]

/-- What is in progress is not beyond a log that continues the history. -/
theorem Cluster.Recorded.seamless {Q : String → Prop} (h : s.Recorded Q) {action : Action}
    (hcontinuing : Continuing s action) : Seamless s action := by
  cases action with
  | joinreq p m => exact hcontinuing
  | start p junk => exact hcontinuing
  | restore p log junk =>
      have hlast := Nat.succ_le_succ hcontinuing.1
      exact ⟨fun r hr => ((h.within p).run r hr).trans hlast,
        fun x hx => ((h.within p).proposals x hx).trans hlast,
        fun u hu => ((h.within p).upcalls u hu).trans hcontinuing.1⟩
  | _ => trivial

theorem Cluster.Move.runs_cases {action : Action} (h : s.Move first action t)
    {run : Nat × List String × String} (hrun : run ∈ t.paxos.runs) :
    run ∈ s.paxos.runs ∨ ∃ p, ∃ proposal ∈ (s.peer p).proposals,
      run = (proposal.inst, proposal.curNodes, proposal.newv) := by
  cases h with
  | @paxos action next hbegin hmove =>
      rw [Cluster.paxos_withPaxos, hmove.runs_eq hbegin] at hrun
      exact .inl hrun
  | @run p proposal next hup hmem hmove =>
      cases hmove with
      | run hnone hinst =>
          rcases List.mem_cons.mp hrun with rfl | hold
          · exact .inr ⟨p, proposal, hmem, rfl⟩
          · exact .inl hold
  | peer hup hstep ht =>
      rcases ht with rfl | rfl
      · exact .inl hrun
      · exact .inl hrun
  | joinreq hup hm => exact .inl hrun
  | dump hmember => exact .inl hrun
  | restored hlog hacc => exact .inl hrun
  | unreadable hlog hacc => exact .inl hrun
  | ping => exact .inl hrun
  | heartbeat => exact .inl hrun
  | down => exact .inl hrun
  | started hacc hnext hvid ht =>
      rcases ht with rfl | rfl
      · exact .inl hrun
      · exact .inl hrun

theorem Cluster.Move.runs_subset {action : Action} (h : s.Move first action t) :
    ∀ run ∈ s.paxos.runs, run ∈ t.paxos.runs := by
  intro run hrun
  cases h with
  | @paxos action next hbegin hmove =>
      rw [Cluster.paxos_withPaxos, hmove.runs_eq hbegin]
      exact hrun
  | run hup hmem hmove =>
      cases hmove with
      | run hnone hinst => exact List.mem_cons_of_mem _ hrun
  | peer hup hstep ht =>
      rcases ht with rfl | rfl
      · exact hrun
      · exact hrun
  | started hacc hnext hvid ht =>
      rcases ht with rfl | rfl
      · exact hrun
      · exact hrun
  | _ => exact hrun

theorem Cluster.Move.replies_subset {action : Action} (h : s.Move first action t) :
    ∀ reply ∈ s.paxos.replies, reply ∈ t.paxos.replies := by
  intro reply hreply
  cases h with
  | paxos hbegin hmove =>
      rw [Cluster.paxos_withPaxos]
      exact hmove.replies_subset reply hreply
  | run hup hmem hmove => exact hmove.replies_subset reply hreply
  | peer hup hstep ht =>
      rcases ht with rfl | rfl
      · exact hreply
      · exact hreply
  | started hacc hnext hvid ht =>
      rcases ht with rfl | rfl
      · exact hreply
      · exact hreply
  | _ => exact hreply

theorem Cluster.Move.logs_cases {action : Action} (h : s.Move first action t) {m : String}
    {log : List Char} (hlog : (m, log) ∈ t.logs) :
    (m, log) ∈ s.logs ∨
      ∃ p vid, ismember (s.acc p) m vid = true ∧ log = (s.acc p).dump := by
  cases h with
  | paxos hbegin hmove =>
      rw [Cluster.logs_withPaxos] at hlog
      exact .inl hlog
  | peer hup hstep ht =>
      rcases ht with rfl | rfl
      · exact .inl hlog
      · exact .inl hlog
  | @dump p m vid hmember =>
      rcases List.mem_cons.mp hlog with heq | hold
      · obtain ⟨rfl, rfl⟩ := Prod.mk.inj heq
        exact .inr ⟨p, vid, hmember, rfl⟩
      · exact .inl hold
  | started hacc hnext hvid ht =>
      rcases ht with rfl | rfl
      · exact .inl hlog
      · exact .inl hlog
  | _ => exact .inl hlog

theorem Cluster.Formed.move {action : Action} (h : s.Formed) (hmove : s.Move first action t)
    (hcontinuing : Continuing s action) : t.Formed := by
  have hrecorded : t.Recorded ViewText :=
    h.recorded.move hmove (h.recorded.seamless hcontinuing) viewText_word (fun _ hv => hv.1)
      fun p proposal hproposal => ((h.sound p).proposals proposal hproposal).1
  refine ⟨hrecorded, fun p => ?_, fun {inst curNodes newv} hrun => ?_⟩
  · refine (h.sound p).change (hmove.peer_change p) hcontinuing
      (h.recorded.chronicled.acceptor p) (hrecorded.chronicled.acceptor p) ?_
    rintro log junk rfl
    cases hmove.acc_change p with
    | progress hprogress hnext => exact keeps_of_progress hprogress
    | restored hlog hacc => exact h.recorded.keeps_restore hlog hacc hcontinuing.1 hcontinuing.2
    | unreadable hlog hacc => exact absurd hacc (h.recorded.restore_ne_none hlog _)
  · rcases hmove.runs_cases hrun with hold | ⟨p, proposal, hmem, heq⟩
    · exact h.runs hold
    · obtain ⟨-, -, rfl⟩ := heq
      exact ((h.sound p).proposals proposal hmem).1

end Preservation

theorem formed_of_reach {first : String} {s : Cluster} (h : (views first).Reach Continuing s) :
    s.Formed := by
  refine h.invariant (P := Cluster.Formed) ?_ ?_
  · rintro start rfl
    exact ⟨Cluster.recorded_initial _ first, fun p => Peer.sound_blank rfl, nofun⟩
  · intro state next action hformed hcontinuing hstep
    exact hformed.move (Cluster.move_of_step hstep) hcontinuing

/-- **Views stay well formed.**  In every run of the cluster in which node names are words and
    restored logs continue the history of the node, every value proposed, accepted or
    committed has at least one member, and no member twice. -/
theorem isView_of_continuing {first : String} {s : Cluster}
    (h : (views first).Reach Continuing s) {v : String} (huses : s.Uses v) : IsView v := by
  have hformed := formed_of_reach h
  have hchronicled := hformed.recorded.chronicled
  cases huses with
  | proposed hrun => exact (hformed.runs hrun).2
  | @requested call arg hcall hreq =>
      have hlegible := hchronicled.call call hcall
      rw [hreq] at hlegible
      exact hlegible.2.2.2
  | accepted hne => exact ((hchronicled.acceptor _).accepted.resolve_left hne).2
  | committed hvalue => exact ((hchronicled.acceptor _).held _ _ hvalue).2

theorem isView_thirdJoins :
    ∃ s, (views "a").Reach Continuing s ∧ (s.acc "b").values 3 = some "a b c " ∧
      IsView "a b c " := by
  obtain ⟨s, hreach, hseen⟩ : ∃ s, (views "a").Reach Continuing s ∧
      (s.acc "b").values 3 = some "a b c " :=
    System.Reach.of_exec (fun s action => decide (Continuing s action))
      (secondJoins ++ thirdJoins) rfl (fun _ _ h => of_decide_eq_true h) (by decide +kernel)
  exact ⟨s, hreach, hseen, isView_of_continuing hreach (.committed hseen)⟩

/-! ### An empty view -/

/-- After the run of `a` has left a gap in its log, `c` restores that log.  The heartbeater of
    `b`, still in view 3, gets no answer from `a`; `b` runs for instance 4 and asks `c`. -/
def emptyView : List Action :=
  [.dump "a" "c", .restore "c" (logText (staleLog ++ [.done 5 "b c d "])) 0, .wake "b", .fail "b",
   .run "b" ⟨4, ["a", "b", "c"], "b c "⟩, .paxos (.skip "b"), .paxos (.skip "b")] ++
  Action.rpc ⟨"b", 0, "c", .prepare ⟨4, ⟨4, "b"⟩⟩⟩ (.prepare { oldinstance := true, vA := "" })

/-- `b` commits the empty string for instance 4. -/
theorem gap_commits_empty_view :
    ¬ ∀ first s v, (views first).Reach (fun _ action => action.Named) s → s.Uses v →
      IsView v := by
  intro hclaim
  obtain ⟨s, hreach, hseen⟩ : ∃ s, (views "a").Reach (fun _ action => action.Named) s ∧
      (s.acc "b").values 4 = some "" :=
    System.Reach.of_exec (fun _ action => decide action.Named)
      (staleRestore ++ lateRun ++ [lateAnswer] ++ emptyView) rfl
      (fun _ _ h => of_decide_eq_true h) (by decide +kernel)
  exact (hclaim "a" s "" hreach (.committed hseen)).1 members_empty

end DistributedLab.Config
