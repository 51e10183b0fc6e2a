import DistributedLab.RpcSystem

/-!
# At most once

A request is executed when `checkduplicate_and_update` answers NEW.  Two things make a
second NEW for the same xid impossible.  A request carries an `xid_rep` below its own
xid, so a duplicate does not trim its own entry; and a call that empties the window
puts in a request above all xids it has dropped, so a duplicate of a dropped request
is below the front of the window.

Both need xids that grow.  After `2^32 - 1` calls `xid_` is 0 again, and the next
request would carry an `xid_rep` above its own xid.

The replies need more: a thread sends from a buffer after it has released the mutex.
A request that says that the client has all replies up to `xid_rep` makes the server
free the buffers below, also one that another thread is about to send, and drop the
entry of a request whose handler is still running.  The results below are about runs
without such a request.
-/

namespace DistributedLab.Rpc

open Transition

/-! ## 1. The invariant of the server -/

def Job.pending : Job → Option (Nat × Nat)
  | .running req => some (req.clt, req.xid)
  | .replying req _ => some (req.clt, req.xid)
  | .sending _ _ _ => none

/-- The entry and the buffer that a dispatch thread relies on. -/
def Rpcs.Backs (s : Rpcs) : Job → Prop
  | .running req => ⟨req.xid, none⟩ ∈ s.replyWindow req.clt
  | .replying req buf => ⟨req.xid, none⟩ ∈ s.replyWindow req.clt ∧
      ∃ pdu : ReplyPdu, pdu.xid = req.xid ∧ s.heap buf = some ⟨req.clt, req.xid, pdu⟩
  | .sending req buf _ => ⟨req.xid, some buf⟩ ∈ s.replyWindow req.clt

structure Rpcs.Tidy (s : Rpcs) : Prop where
  sorted : ∀ clt, Sorted (s.replyWindow clt)
  seen : ∀ key ∈ s.news, Seen (s.replyWindow key.1) key.2
  once : s.news.Nodup
  entries : ∀ clt, ∀ e ∈ s.replyWindow clt, (clt, e.xid) ∈ s.news
  bufs : ∀ clt, ∀ e ∈ s.replyWindow clt, ∀ buf, e.buf = some buf →
    ∃ pdu : ReplyPdu, pdu.xid = e.xid ∧ s.heap buf = some ⟨clt, e.xid, pdu⟩ ∧
      ⟨clt, e.xid, pdu⟩ ∈ s.stored
  known : ∀ cell ∈ s.stored, (cell.clt, cell.xid) ∈ s.news
  filled : ∀ cell ∈ s.stored, ⟨cell.xid, none⟩ ∉ s.replyWindow cell.clt
  unique : ∀ cell ∈ s.stored, ∀ cell' ∈ s.stored,
    cell'.clt = cell.clt → cell'.xid = cell.xid → cell' = cell
  jobs : ∀ job ∈ s.jobs, s.Backs job
  pending : (s.jobs.filterMap Job.pending).Nodup
  resent : ∀ cell ∈ s.resent, cell ∈ s.stored

theorem Rpcs.tidy_new (nonce : Nat) (procs : List Nat) : (Rpcs.new nonce procs).Tidy where
  sorted := fun _ => List.Pairwise.nil
  seen := nofun
  once := List.nodup_nil
  entries := nofun
  bufs := nofun
  known := nofun
  filled := nofun
  unique := nofun
  jobs := nofun
  pending := List.nodup_nil
  resent := nofun

section Server

variable {s : Rpcs}

/-- A thread with a pending request has its entry in the window. -/
theorem Rpcs.Tidy.pending_entry (h : s.Tidy) {key : Nat × Nat}
    (hkey : key ∈ s.jobs.filterMap Job.pending) : ⟨key.2, none⟩ ∈ s.replyWindow key.1 := by
  obtain ⟨job, hjob, hpending⟩ := List.mem_filterMap.mp hkey
  have hbacks := h.jobs job hjob
  cases job with
  | running req =>
      cases hpending
      exact hbacks
  | replying req buf =>
      cases hpending
      exact hbacks.1
  | sending req buf resend => cases hpending

/-- Trimming frees only buffers of the client's requests below `xid_rep`. -/
theorem Rpcs.Tidy.not_freed (h : s.Tidy) {clt xidRep buf : Nat} {cell : Cell}
    (hcell : s.heap buf = some cell) (hkeep : cell.clt = clt → xidRep ≤ cell.xid) :
    buf ∉ freed xidRep (s.replyWindow clt) := by
  intro hfreed
  obtain ⟨e, hmem, hlt, hbuf⟩ := mem_freed hfreed
  obtain ⟨pdu, -, hheap, -⟩ := h.bufs clt e hmem buf hbuf
  rw [hcell, Option.some.injEq] at hheap
  subst hheap
  exact absurd (hkeep rfl) (Nat.not_le.mpr hlt)

/-! ## 2. Classifying a request

The condition on the jobs is the one of the introduction: the request does not
acknowledge a request that a dispatch thread still works on. -/

section Classify

variable {req : Request} {state : RpcState} {w : List ReplyT}

theorem Rpcs.replyWindow_retain_self : (s.retain req w).replyWindow req.clt = w := by
  simp [Rpcs.retain]

theorem Rpcs.replyWindow_retain_other {clt : Nat} (hne : clt ≠ req.clt) :
    (s.retain req w).replyWindow clt = s.replyWindow clt := by
  simp [Rpcs.retain, Rpcs.free, hne]

theorem Rpcs.Tidy.heap_retain (h : s.Tidy) {buf : Nat} {cell : Cell}
    (hcell : s.heap buf = some cell) (hkeep : cell.clt = req.clt → req.xidRep ≤ cell.xid) :
    (s.retain req w).heap buf = some cell := by
  simp only [Rpcs.retain, Rpcs.free, if_neg (h.not_freed hcell hkeep)]
  exact hcell

section Retain

variable (h : s.Tidy) (hout : Outcome (trim req.xidRep (s.replyWindow req.clt)) req.xid state w)

include h hout

/-- Entries that are not below `xid_rep` stay. -/
theorem Rpcs.Tidy.mem_retain {clt : Nat} {e : ReplyT} (hmem : e ∈ s.replyWindow clt)
    (hkeep : clt = req.clt → req.xidRep ≤ e.xid) :
    e ∈ (s.retain req w).replyWindow clt := by
  by_cases hclt : clt = req.clt
  · subst hclt
    rw [Rpcs.replyWindow_retain_self]
    exact hout.subset ((h.sorted _).mem_trim.mpr ⟨hmem, hkeep rfl⟩)
  · rw [Rpcs.replyWindow_retain_other hclt]
    exact hmem

/-- The only entry that can be new is the one of the request. -/
theorem Rpcs.Tidy.mem_of_retain {clt : Nat} {e : ReplyT}
    (hmem : e ∈ (s.retain req w).replyWindow clt) :
    (e ∈ s.replyWindow clt ∧ (clt = req.clt → req.xidRep ≤ e.xid)) ∨
      (clt = req.clt ∧ e = ⟨req.xid, none⟩) := by
  by_cases hclt : clt = req.clt
  · subst hclt
    rw [Rpcs.replyWindow_retain_self] at hmem
    rcases hout.mem hmem with hold | hnew
    · obtain ⟨hmem', hle⟩ := (h.sorted _).mem_trim.mp hold
      exact .inl ⟨hmem', fun _ => hle⟩
    · exact .inr ⟨rfl, hnew⟩
  · rw [Rpcs.replyWindow_retain_other hclt] at hmem
    exact .inl ⟨hmem, fun heq => absurd heq hclt⟩

theorem Rpcs.Tidy.backs_retain {job : Job} (hbacks : s.Backs job)
    (hkeep : job.req.clt = req.clt → req.xidRep ≤ job.req.xid) :
    (s.retain req w).Backs job := by
  cases job with
  | running r => exact h.mem_retain hout hbacks hkeep
  | replying r buf =>
      obtain ⟨hmem, pdu, hxid, hheap⟩ := hbacks
      exact ⟨h.mem_retain hout hmem hkeep, pdu, hxid, h.heap_retain hheap hkeep⟩
  | sending r buf resend => exact h.mem_retain hout hbacks hkeep

theorem Rpcs.Tidy.sorted_retain (clt : Nat) : Sorted ((s.retain req w).replyWindow clt) := by
  by_cases hclt : clt = req.clt
  · subst hclt
    rw [Rpcs.replyWindow_retain_self]
    exact hout.sorted ((h.sorted _).trim _)
  · rw [Rpcs.replyWindow_retain_other hclt]
    exact h.sorted clt

theorem Rpcs.Tidy.seen_retain (hrep : req.xidRep < req.xid) {key : Nat × Nat}
    (hkey : key ∈ s.news) :
    Seen ((s.retain req w).replyWindow key.1) key.2 := by
  have hseen := h.seen key hkey
  by_cases hclt : key.1 = req.clt
  · rw [hclt] at hseen ⊢
    rw [Rpcs.replyWindow_retain_self]
    exact hseen.checkduplicate (h.sorted _) hrep hout
  · rw [Rpcs.replyWindow_retain_other hclt]
    exact hseen

theorem Rpcs.Tidy.bufs_retain {clt buf : Nat} {e : ReplyT}
    (hmem : e ∈ (s.retain req w).replyWindow clt) (hbuf : e.buf = some buf) :
    ∃ pdu : ReplyPdu, pdu.xid = e.xid ∧
      (s.retain req w).heap buf = some ⟨clt, e.xid, pdu⟩ ∧ ⟨clt, e.xid, pdu⟩ ∈ s.stored := by
  rcases h.mem_of_retain hout hmem with ⟨hold, hle⟩ | ⟨-, rfl⟩
  · obtain ⟨pdu, hxid, hheap, hstored⟩ := h.bufs clt e hold buf hbuf
    exact ⟨pdu, hxid, h.heap_retain hheap hle, hstored⟩
  · cases hbuf

/-- A duplicate leaves the server tidy. -/
theorem Rpcs.Tidy.retain (hrep : req.xidRep < req.xid)
    (hkeep : ∀ job ∈ s.jobs, job.req.clt = req.clt → req.xidRep ≤ job.req.xid)
    (hold : ∀ e ∈ w, e ∈ s.replyWindow req.clt) : (s.retain req w).Tidy := by
  have hmem : ∀ clt e, e ∈ (s.retain req w).replyWindow clt → e ∈ s.replyWindow clt := by
    intro clt e he
    by_cases hclt : clt = req.clt
    · subst hclt
      rw [Rpcs.replyWindow_retain_self] at he
      exact hold e he
    · rw [Rpcs.replyWindow_retain_other hclt] at he
      exact he
  constructor
  · exact h.sorted_retain hout
  · intro key hkey
    exact h.seen_retain hout hrep hkey
  · exact h.once
  · intro clt e he
    exact h.entries clt e (hmem clt e he)
  · intro clt e he buf hbuf
    exact h.bufs_retain hout he hbuf
  · exact h.known
  · intro cell hcell he
    exact h.filled cell hcell (hmem _ _ he)
  · exact h.unique
  · intro job hjob
    exact h.backs_retain hout (h.jobs job hjob) (hkeep job hjob)
  · exact h.pending
  · exact h.resent

end Retain

/-- **NEW is answered at most once.**  A request that was NEW before has left a trace. -/
theorem Rpcs.Tidy.not_mem_news (h : s.Tidy)
    (hout : Outcome (trim req.xidRep (s.replyWindow req.clt)) req.xid .new w)
    (hrep : req.xidRep < req.xid) : (req.clt, req.xid) ∉ s.news := by
  intro hkey
  rcases (h.seen _ hkey).trim (h.sorted _) with hseen | ⟨-, hlt⟩
  · exact hseen.not_new hout
  · exact absurd hlt (Nat.not_lt.mpr hrep.le)

/-- A new request gets an entry and a thread. -/
theorem Rpcs.Tidy.retain_new (h : s.Tidy)
    (hout : Outcome (trim req.xidRep (s.replyWindow req.clt)) req.xid .new w)
    (hrep : req.xidRep < req.xid)
    (hkeep : ∀ job ∈ s.jobs, job.req.clt = req.clt → req.xidRep ≤ job.req.xid) :
    Rpcs.Tidy { s.retain req w with
      jobs := .running req :: s.jobs, news := (req.clt, req.xid) :: s.news } := by
  have hfresh := h.not_mem_news hout hrep
  have hentry : ⟨req.xid, none⟩ ∈ (s.retain req w).replyWindow req.clt := by
    rw [Rpcs.replyWindow_retain_self]
    cases hout with
    | new before after => exact List.mem_append_right before List.mem_cons_self
  constructor
  · exact h.sorted_retain hout
  · intro key hkey
    rcases List.mem_cons.mp hkey with rfl | hkey
    · exact .inl ⟨_, hentry, rfl⟩
    · exact h.seen_retain hout hrep hkey
  · exact List.nodup_cons.mpr ⟨hfresh, h.once⟩
  · intro clt e he
    rcases h.mem_of_retain hout he with ⟨hold, -⟩ | ⟨rfl, rfl⟩
    · exact List.mem_cons_of_mem _ (h.entries clt e hold)
    · exact List.mem_cons_self
  · intro clt e he buf hbuf
    exact h.bufs_retain hout he hbuf
  · intro cell hcell
    exact List.mem_cons_of_mem _ (h.known cell hcell)
  · intro cell hcell he
    rcases h.mem_of_retain hout he with ⟨hold, -⟩ | ⟨hclt, hxid⟩
    · exact h.filled cell hcell hold
    · -- a reply for the request would mean that it was NEW before
      have hknown := h.known cell hcell
      rw [hclt, (ReplyT.mk.inj hxid).1] at hknown
      exact hfresh hknown
  · exact h.unique
  · intro job hjob
    rcases List.mem_cons.mp hjob with rfl | hjob
    · exact hentry
    · exact h.backs_retain hout (h.jobs job hjob) (hkeep job hjob)
  · refine List.nodup_cons.mpr ⟨?_, h.pending⟩
    intro hkey
    exact hfresh (h.entries _ _ (h.pending_entry hkey))
  · exact h.resent

theorem Rpcs.Tidy.dispatch (h : s.Tidy) (hclt : req.clt ≠ 0) (hrep : req.xidRep < req.xid)
    (hkeep : ∀ job ∈ s.jobs, job.req.clt = req.clt → req.xidRep ≤ job.req.xid)
    {t : Rpcs} {pdu : Option ReplyPdu} (hstep : s.dispatch req = some (t, pdu)) : t.Tidy := by
  unfold Rpcs.dispatch at hstep
  split_ifs at hstep
  · cases hstep
    exact h
  · have hout := @outcome_classify _ req.xid ((h.sorted req.clt).trim req.xidRep)
    have hold : ∀ e ∈ trim req.xidRep (s.replyWindow req.clt), e ∈ s.replyWindow req.clt :=
      fun e he => ((h.sorted _).mem_trim.mp he).1
    simp only [checkduplicateAndUpdate] at hstep
    generalize classify (trim req.xidRep (s.replyWindow req.clt)) req.xid = out at hout hstep
    obtain ⟨state, w⟩ := out
    cases hout with
    | new before after hw hbefore hafter hfront =>
        cases hstep
        exact h.retain_new (.new before after hw hbefore hafter hfront) hrep hkeep
    | inprogress hmem =>
        cases hstep
        exact h.retain (.inprogress hmem) hrep hkeep hold
    | @done buf hmem =>
        cases hstep
        have ht := h.retain (.done hmem) hrep hkeep hold
        have hbacks : ⟨req.xid, some buf⟩ ∈
            (s.retain req (trim req.xidRep (s.replyWindow req.clt))).replyWindow req.clt := by
          rw [Rpcs.replyWindow_retain_self]
          exact hmem
        refine { ht with jobs := ?_, pending := ht.pending }
        intro job hjob
        rcases List.mem_cons.mp hjob with rfl | hjob
        · exact hbacks
        · exact ht.jobs job hjob
    | forgotten hne hall =>
        cases hstep
        exact h.retain (.forgotten hne hall) hrep hkeep hold

end Classify

/-! ## 3. Replying -/

section Reply

variable {req : Request} {buf : Nat} {t : Rpcs}

theorem Job.pending_erase {jobs : List Job} {job : Job} {key : Nat × Nat} (hjob : job ∈ jobs)
    (hkey : job.pending = some key) (hnodup : (jobs.filterMap Job.pending).Nodup) :
    (key :: (jobs.erase job).filterMap Job.pending).Nodup := by
  have hperm := (List.perm_cons_erase hjob).filterMap Job.pending
  rw [List.filterMap_cons_some hkey] at hperm
  exact hperm.nodup_iff.mp hnodup

theorem Rpcs.Tidy.execute (h : s.Tidy) {ret : Int} {body : List UInt8}
    (hstep : s.execute req buf ret body = some t) : t.Tidy := by
  unfold Rpcs.execute at hstep
  split_ifs at hstep with hguard
  obtain ⟨hjob, -, hfree⟩ := hguard
  cases hstep
  -- the buffer is not the one of a reply that somebody relies on
  have hheap : ∀ (other : Nat) (cell : Cell), s.heap other = some cell →
      Function.update s.heap buf (some ⟨req.clt, req.xid, ⟨req.xid, ret, body⟩⟩) other =
        some cell := by
    intro other cell hcell
    rw [Function.update_of_ne, hcell]
    rintro rfl
    rw [hfree] at hcell
    cases hcell
  constructor
  · exact h.sorted
  · exact h.seen
  · exact h.once
  · exact h.entries
  · intro clt e he other hbuf
    obtain ⟨pdu, hxid, hcell, hstored⟩ := h.bufs clt e he other hbuf
    exact ⟨pdu, hxid, hheap other _ hcell, hstored⟩
  · exact h.known
  · exact h.filled
  · exact h.unique
  · intro job hmem
    rcases List.mem_cons.mp hmem with rfl | hmem
    · refine ⟨h.jobs _ hjob, ⟨req.xid, ret, body⟩, rfl, ?_⟩
      exact Function.update_self ..
    · have hbacks := h.jobs job (List.mem_of_mem_erase hmem)
      cases job with
      | running r => exact hbacks
      | replying r other =>
          obtain ⟨hentry, pdu, hxid, hcell⟩ := hbacks
          exact ⟨hentry, pdu, hxid, hheap other _ hcell⟩
      | sending r other resend => exact hbacks
  · exact Job.pending_erase hjob rfl h.pending
  · exact h.resent

/-- The windows after `add_reply`: the entry of the request has the buffer, the other entries
    stay. -/
theorem mem_of_filled {w : List ReplyT} {clt : Nat} {e : ReplyT}
    (hsorted : Sorted (s.replyWindow req.clt))
    (hadd : Rpc.addReply req.xid buf (s.replyWindow req.clt) = some w)
    (he : e ∈ Function.update s.replyWindow req.clt w clt) :
    (clt = req.clt ∧ e = ⟨req.xid, some buf⟩) ∨
      (e ∈ s.replyWindow clt ∧ (clt = req.clt → e.xid ≠ req.xid)) := by
  by_cases hsame : clt = req.clt
  · subst hsame
    rw [Function.update_self] at he
    rcases mem_of_addReply hadd hsorted he with hnew | ⟨hold, hne⟩
    · exact .inl ⟨rfl, hnew⟩
    · exact .inr ⟨hold, fun _ => hne⟩
  · rw [Function.update_of_ne hsame] at he
    exact .inr ⟨he, fun heq => absurd heq hsame⟩

theorem mem_filled {w : List ReplyT} {clt : Nat} {e : ReplyT}
    (hadd : Rpc.addReply req.xid buf (s.replyWindow req.clt) = some w)
    (he : e ∈ s.replyWindow clt) (hne : clt = req.clt → e.xid ≠ req.xid) :
    e ∈ Function.update s.replyWindow req.clt w clt := by
  by_cases hsame : clt = req.clt
  · subst hsame
    rw [Function.update_self]
    exact mem_addReply_of_ne hadd he (hne rfl)
  · rw [Function.update_of_ne hsame]
    exact he

/-- A reply that was stored before would have filled the entry. -/
theorem Rpcs.Tidy.not_stored (h : s.Tidy) (hentry : ⟨req.xid, none⟩ ∈ s.replyWindow req.clt)
    {cell : Cell} (hcell : cell ∈ s.stored) (hclt : cell.clt = req.clt) : cell.xid ≠ req.xid := by
  intro hxid
  have hfilled := h.filled cell hcell
  rw [hclt, hxid] at hfilled
  exact hfilled hentry

/-- The other threads keep what they rely on. -/
theorem Rpcs.Tidy.backs_filled (h : s.Tidy) {w : List ReplyT} {stored : List Cell}
    {jobs : List Job} (hentry : ⟨req.xid, none⟩ ∈ s.replyWindow req.clt)
    (hadd : Rpc.addReply req.xid buf (s.replyWindow req.clt) = some w) {job : Job}
    (hjob : job ∈ s.jobs) (hother : job.pending ≠ some (req.clt, req.xid)) :
    ({ s with
      replyWindow := Function.update s.replyWindow req.clt w
      stored := stored
      jobs := jobs } : Rpcs).Backs job := by
  have hbacks := h.jobs job hjob
  cases job with
  | running r =>
      apply mem_filled hadd hbacks
      intro hclt hxid
      exact hother (congrArg some (Prod.ext hclt hxid))
  | replying r other =>
      obtain ⟨hold, pdu, hxid, hheap⟩ := hbacks
      refine ⟨mem_filled hadd hold ?_, pdu, hxid, hheap⟩
      intro hclt hxid
      exact hother (congrArg some (Prod.ext hclt hxid))
  | sending r other resend =>
      apply mem_filled hadd hbacks
      intro hclt hxid
      have hold : ⟨r.xid, some other⟩ ∈ s.replyWindow req.clt := hclt ▸ hbacks
      exact absurd (congrArg ReplyT.buf ((h.sorted req.clt).eq_of_xid hold hentry hxid)) nofun

theorem Rpcs.Tidy.addReply (h : s.Tidy) (hclt : req.clt ≠ 0)
    (hstep : s.addReply req buf = some t) : t.Tidy := by
  unfold Rpcs.addReply at hstep
  split_ifs at hstep with hjob
  obtain ⟨w, hadd, rfl⟩ := Option.map_eq_some_iff.mp hstep
  obtain ⟨hentry, pdu, hxid, hheap⟩ := h.jobs _ hjob
  have hsorted := h.sorted req.clt
  have hknown : (req.clt, req.xid) ∈ s.news := h.entries _ _ hentry
  have hpending := Job.pending_erase hjob rfl h.pending
  simp only [hheap, Option.toList_some, List.cons_append, List.nil_append]
  constructor
  · intro clt
    by_cases hsame : clt = req.clt
    · subst hsame
      simpa using hsorted.addReply hadd
    · simpa [hsame] using h.sorted clt
  · intro key hkey
    have hseen := h.seen key hkey
    by_cases hsame : key.1 = req.clt
    · rw [hsame] at hseen ⊢
      simpa using hseen.addReply hadd
    · simpa [hsame] using hseen
  · exact h.once
  · intro clt e he
    rcases mem_of_filled hsorted hadd he with ⟨rfl, rfl⟩ | ⟨hold, -⟩
    · exact hknown
    · exact h.entries clt e hold
  · intro clt e he other hbuf
    rcases mem_of_filled hsorted hadd he with ⟨rfl, rfl⟩ | ⟨hold, -⟩
    · cases hbuf
      exact ⟨pdu, hxid, hheap, List.mem_cons_self⟩
    · obtain ⟨pdu', hxid', hheap', hstored⟩ := h.bufs clt e hold other hbuf
      exact ⟨pdu', hxid', hheap', List.mem_cons_of_mem _ hstored⟩
  · intro cell hcell
    rcases List.mem_cons.mp hcell with rfl | hcell
    · exact hknown
    · exact h.known cell hcell
  · intro cell hcell he
    rcases mem_of_filled hsorted hadd he with ⟨-, hnew⟩ | ⟨hold, hne⟩
    · exact absurd (congrArg ReplyT.buf hnew) nofun
    · rcases List.mem_cons.mp hcell with rfl | hcell
      · exact hne rfl rfl
      · exact h.filled cell hcell hold
  · intro cell hcell cell' hcell' hsame hsamexid
    rcases List.mem_cons.mp hcell with rfl | hcell
    · rcases List.mem_cons.mp hcell' with rfl | hcell'
      · rfl
      · exact absurd hsamexid (h.not_stored hentry hcell' hsame)
    · rcases List.mem_cons.mp hcell' with rfl | hcell'
      · exact absurd hsamexid.symm (h.not_stored hentry hcell hsame.symm)
      · exact h.unique cell hcell cell' hcell' hsame hsamexid
  · intro job hjobs
    rcases List.mem_cons.mp hjobs with rfl | hjobs
    · show _ ∈ Function.update s.replyWindow req.clt w req.clt
      rw [Function.update_self]
      exact mem_addReply_self hadd
    · apply h.backs_filled hentry hadd (List.mem_of_mem_erase hjobs)
      intro hkey
      exact (List.nodup_cons.mp hpending).1 (List.mem_filterMap.mpr ⟨job, hjobs, hkey⟩)
  · exact (List.nodup_cons.mp hpending).2
  · intro cell hcell
    exact List.mem_cons_of_mem _ (h.resent cell hcell)

/-- The buffer of a sending thread holds the stored reply. -/
theorem Rpcs.Tidy.read_sending (h : s.Tidy) {resend : Bool} {junk : ReplyPdu}
    (hjob : .sending req buf resend ∈ s.jobs) :
    (s.read buf junk).xid = req.xid ∧ ⟨req.clt, req.xid, s.read buf junk⟩ ∈ s.stored := by
  obtain ⟨pdu, hxid, hheap, hstored⟩ := h.bufs _ _ (h.jobs _ hjob) buf rfl
  simp only [Rpcs.read, hheap, Option.map_some, Option.getD_some]
  exact ⟨hxid, hstored⟩

theorem Rpcs.Tidy.send (h : s.Tidy) (hclt : req.clt ≠ 0) {resend : Bool} {junk pdu : ReplyPdu}
    (hstep : s.send req buf resend junk = some (t, pdu)) : t.Tidy ∧ pdu.xid = req.xid := by
  by_cases hjob : .sending req buf resend ∈ s.jobs
  swap
  · rw [Rpcs.send, if_neg hjob] at hstep
    cases hstep
  simp only [Rpcs.send, if_pos hjob, if_neg hclt, Option.some.injEq, Prod.mk.injEq] at hstep
  obtain ⟨rfl, rfl⟩ := hstep
  obtain ⟨hxid, hstored⟩ := h.read_sending hjob
  refine ⟨?_, hxid⟩
  refine { h with jobs := ?_, pending := ?_, resent := ?_ }
  · intro job hmem
    exact h.jobs job (List.mem_of_mem_erase hmem)
  · exact h.pending.sublist (List.erase_sublist.filterMap Job.pending)
  · intro cell hcell
    cases resend with
    | false => exact h.resent cell hcell
    | true =>
        rcases List.mem_cons.mp hcell with rfl | hcell
        · exact hstored
        · exact h.resent cell hcell

end Reply

end Server

/-! ## 4. The clients -/

/-- All xids that the client has given to calls are below this number. -/
def Rpcc.limit (c : Rpcc) : Nat := if c.xid = 0 then xidBound else c.xid

structure Rpcc.Counts (c : Rpcc) : Prop where
  xid : c.xid < xidBound
  window : ∀ x ∈ c.xidRepWindow, x < c.limit
  calls : ∀ x ∈ c.calls, x < c.limit

section Client

variable {c : Rpcc}

theorem Rpcc.counts_new : Rpcc.new.Counts where
  xid := by decide
  window := by decide
  calls := nofun

theorem Rpcc.Counts.updateXidRep (h : c.Counts) {xid : Nat} (hxid : xid < c.limit) :
    (c.updateXidRep xid).Counts := by
  refine { h with window := ?_ }
  intro x hx
  rcases mem_updateXidRep hx with rfl | hmem
  · exact hxid
  · exact h.window x hmem

theorem Rpcc.Counts.finish (h : c.Counts) {xid : Nat} {next : Rpcc}
    (hstep : c.finish xid = some next) : next.Counts ∧ next.limit = c.limit := by
  unfold Rpcc.finish at hstep
  split_ifs at hstep with hcall
  cases hstep
  have hrest : ({ c with calls := c.calls.erase xid } : Rpcc).Counts :=
    { h with calls := fun x hx => h.calls x (List.mem_of_mem_erase hx) }
  exact ⟨hrest.updateXidRep (h.calls xid hcall), rfl⟩

theorem Rpcc.Counts.front_lt (h : c.Counts) (hxid : c.xid ≠ 0) : c.front < c.xid := by
  have hlimit : c.limit = c.xid := if_neg hxid
  unfold Rpcc.front
  rcases hwindow : c.xidRepWindow with _ | ⟨front, rest⟩
  · exact Nat.pos_of_ne_zero hxid
  · rw [← hlimit]
    exact h.window front (by simp [hwindow])

/-- A call takes the next xid, and sends an `xid_rep` below it. -/
theorem Rpcc.Counts.call1 (h : c.Counts) (hxid : c.xid ≠ 0) {clt proc : Nat} {next : Rpcc}
    {req : Request} (hstep : c.call1 clt proc = some (next, req)) :
    next.Counts ∧ next.limit = c.limit + 1 ∧ req.clt = clt ∧ req.xidRep < req.xid ∧
      req.xid < next.limit := by
  have hlimit : c.limit = c.xid := if_neg hxid
  unfold Rpcc.call1 at hstep
  split_ifs at hstep
  cases hstep
  have hbound := h.xid
  have hnext : Rpcc.limit { c with
      xid := (c.xid + 1) % xidBound, calls := c.xid :: c.calls } = c.limit + 1 := by
    rw [hlimit]
    unfold Rpcc.limit
    by_cases hwrap : c.xid + 1 = xidBound
    · simp [hwrap]
    · have hmod : (c.xid + 1) % xidBound = c.xid + 1 := Nat.mod_eq_of_lt (by omega)
      simp [hmod]
  refine ⟨⟨Nat.mod_lt _ (by decide), ?_, ?_⟩, hnext, rfl, h.front_lt hxid, ?_⟩
  · intro x hx
    rw [hnext]
    exact Nat.lt_succ_of_lt (h.window x hx)
  · intro x hx
    rw [hnext]
    rcases List.mem_cons.mp hx with rfl | hx
    · omega
    · exact Nat.lt_succ_of_lt (h.calls x hx)
  · rw [hnext, hlimit]
    exact Nat.lt_succ_self c.xid

end Client

/-! ## 5. Runs -/

/-- A client does not call after its xids have wrapped around. -/
def Net.unwrapped (s : Net) : Net.Action → Bool
  | .call clt _ => (s.client clt).xid != 0
  | _ => true

/-- A request does not acknowledge a request of the same client that a dispatch thread still
    works on. -/
def Net.settled (s : Net) : Net.Action → Bool
  | .dispatch req => s.server.jobs.all fun job =>
      job.req.clt != req.clt || decide (req.xidRep ≤ job.req.xid)
  | _ => true

def Net.orderly (s : Net) (action : Net.Action) : Bool := s.unwrapped action && s.settled action

/-- At-most-once: no request is NEW twice, an answer in the case DONE is the reply that was
    stored for the request, and there is an entry to store a reply in. -/
structure Net.AtMostOnce (s : Net) : Prop where
  news : s.server.news.Nodup
  resent : ∀ cell ∈ s.server.resent, ∀ pdu : ReplyPdu,
    ⟨cell.clt, cell.xid, pdu⟩ ∈ s.server.stored ↔ pdu = cell.pdu
  stores : ∀ req buf, .replying req buf ∈ s.server.jobs →
    (addReply req.xid buf (s.server.replyWindow req.clt)).isSome

structure Net.Ordered (s : Net) : Prop where
  clients : ∀ clt, (s.client clt).Counts
  requests : ∀ req ∈ s.requests, req.clt ≠ 0 ∧ req.xidRep < req.xid ∧
    req.xid < (s.client req.clt).limit
  replies : ∀ reply ∈ s.replies, reply.2.xid < (s.client reply.1).limit
  jobs : ∀ job ∈ s.server.jobs, job.req ∈ s.requests
  server : s.server.Tidy

section Runs

variable {s t : Net} {nonce : Nat} {procs : List Nat}

theorem Net.Ordered.setClient (h : s.Ordered) {clt : Nat} {c : Rpcc} (hc : c.Counts)
    (hlimit : (s.client clt).limit ≤ c.limit) : (s.setClient clt c).Ordered := by
  have hmono : ∀ other, (s.client other).limit ≤ ((s.setClient clt c).client other).limit := by
    intro other
    by_cases hother : other = clt
    · subst hother
      simpa [Net.setClient] using hlimit
    · simp [Net.setClient, hother]
  constructor
  · intro other
    by_cases hother : other = clt
    · subst hother
      simpa [Net.setClient] using hc
    · simpa [Net.setClient, hother] using h.clients other
  · intro req hreq
    obtain ⟨hclt, hrep, hlt⟩ := h.requests req hreq
    exact ⟨hclt, hrep, hlt.trans_le (hmono req.clt)⟩
  · intro reply hreply
    exact (h.replies reply hreply).trans_le (hmono reply.1)
  · exact h.jobs
  · exact h.server

theorem Rpcs.dispatch_frame {server next : Rpcs} {req : Request} {pdu : Option ReplyPdu}
    (hstep : server.dispatch req = some (next, pdu)) :
    (∀ job ∈ next.jobs, job ∈ server.jobs ∨ job.req = req) ∧ ∀ p ∈ pdu, p.xid = req.xid := by
  unfold Rpcs.dispatch at hstep
  split_ifs at hstep
  · cases hstep
    exact ⟨fun job hjob => .inl hjob, fun p hp => by cases hp; rfl⟩
  · cases hstep
    refine ⟨?_, nofun⟩
    intro job hjob
    rcases List.mem_cons.mp hjob with rfl | hjob
    · exact .inr rfl
    · exact .inl hjob
  · rcases hout : checkduplicateAndUpdate (server.replyWindow req.clt) req.xid req.xidRep
      with ⟨state, w⟩
    rw [hout] at hstep
    cases state with
    | new | done buf =>
        cases hstep
        refine ⟨?_, nofun⟩
        intro job hjob
        rcases List.mem_cons.mp hjob with rfl | hjob
        · exact .inr rfl
        · exact .inl hjob
    | inprogress =>
        cases hstep
        exact ⟨fun job hjob => .inl hjob, nofun⟩
    | forgotten =>
        cases hstep
        exact ⟨fun job hjob => .inl hjob, fun p hp => by cases hp; rfl⟩

theorem Net.Ordered.dispatch (h : s.Ordered) {req : Request} {server : Rpcs}
    {pdu : Option ReplyPdu} (hreq : req ∈ s.requests)
    (hguard : s.settled (.dispatch req) = true)
    (hstep : s.server.dispatch req = some (server, pdu)) :
    Net.Ordered { s with
      server := server, replies := pdu.toList.map (fun p => (req.clt, p)) ++ s.replies } := by
  obtain ⟨hclt, hrep, hlt⟩ := h.requests req hreq
  obtain ⟨hjobs, hpdu⟩ := Rpcs.dispatch_frame hstep
  have hkeep : ∀ job ∈ s.server.jobs, job.req.clt = req.clt → req.xidRep ≤ job.req.xid := by
    intro job hjob hsame
    have hall := List.all_eq_true.mp hguard job hjob
    simpa [hsame] using hall
  constructor
  · exact h.clients
  · exact h.requests
  · intro reply hreply
    rcases List.mem_append.mp hreply with hnew | hold
    · obtain ⟨p, hp, rfl⟩ := List.mem_map.mp hnew
      rw [hpdu p (Option.mem_toList.mp hp)]
      exact hlt
    · exact h.replies reply hold
  · intro job hjob
    rcases hjobs job hjob with hold | hnew
    · exact h.jobs job hold
    · exact hnew ▸ hreq
  · exact h.server.dispatch hclt hrep hkeep hstep

theorem Net.Ordered.execute (h : s.Ordered) {req : Request} {buf : Nat} {ret : Int}
    {body : List UInt8} {server : Rpcs} (hstep : s.server.execute req buf ret body = some server) :
    Net.Ordered { s with server := server } := by
  refine { h with jobs := ?_, server := h.server.execute hstep }
  unfold Rpcs.execute at hstep
  split_ifs at hstep with hguard
  cases hstep
  intro job hjob
  rcases List.mem_cons.mp hjob with rfl | hjob
  · exact h.jobs (.running req) hguard.1
  · exact h.jobs job (List.mem_of_mem_erase hjob)

theorem Net.Ordered.addReply (h : s.Ordered) {req : Request} {buf : Nat} {server : Rpcs}
    (hstep : s.server.addReply req buf = some server) :
    Net.Ordered { s with server := server } := by
  by_cases hjob : .replying req buf ∈ s.server.jobs
  swap
  · rw [Rpcs.addReply, if_neg hjob] at hstep
    cases hstep
  have hreq : req ∈ s.requests := h.jobs _ hjob
  have hclt := (h.requests req hreq).1
  refine { h with jobs := ?_, server := h.server.addReply hclt hstep }
  simp only [Rpcs.addReply, if_pos hjob, if_neg hclt] at hstep
  obtain ⟨w, -, rfl⟩ := Option.map_eq_some_iff.mp hstep
  intro job hmem
  rcases List.mem_cons.mp hmem with rfl | hmem
  · exact hreq
  · exact h.jobs job (List.mem_of_mem_erase hmem)

theorem Net.Ordered.send (h : s.Ordered) {req : Request} {buf : Nat} {resend : Bool}
    {junk pdu : ReplyPdu} {server : Rpcs}
    (hstep : s.server.send req buf resend junk = some (server, pdu)) :
    Net.Ordered { s with server := server, replies := (req.clt, pdu) :: s.replies } := by
  by_cases hjob : .sending req buf resend ∈ s.server.jobs
  swap
  · rw [Rpcs.send, if_neg hjob] at hstep
    cases hstep
  have hreq : req ∈ s.requests := h.jobs _ hjob
  obtain ⟨hclt, -, hlt⟩ := h.requests req hreq
  obtain ⟨htidy, hxid⟩ := h.server.send hclt hstep
  refine { h with replies := ?_, jobs := ?_, server := htidy }
  · intro reply hreply
    rcases List.mem_cons.mp hreply with rfl | hreply
    · rw [hxid]
      exact hlt
    · exact h.replies reply hreply
  · simp only [Rpcs.send, if_pos hjob, if_neg hclt, Option.some.injEq, Prod.mk.injEq] at hstep
    obtain ⟨rfl, -⟩ := hstep
    intro job hmem
    exact h.jobs job (List.mem_of_mem_erase hmem)

theorem Net.Ordered.step (h : s.Ordered) {action : Net.Action}
    (hguard : s.orderly action = true) (hstep : s.step action = some t) : t.Ordered := by
  obtain ⟨hunwrapped, hsettled⟩ := Bool.and_eq_true_iff.mp hguard
  cases action with
  | call clt proc =>
      simp only [Net.step] at hstep
      split_ifs at hstep with hclt
      obtain ⟨⟨c, req⟩, hcall, rfl⟩ := Option.map_eq_some_iff.mp hstep
      have hxid : (s.client clt).xid ≠ 0 := by simpa [Net.unwrapped] using hunwrapped
      obtain ⟨hcounts, hlimit, rfl, hrep, hlt⟩ := (h.clients clt).call1 hxid hcall
      have hset : (s.setClient req.clt c).Ordered := h.setClient hcounts (by omega)
      refine { hset with requests := ?_, jobs := ?_ }
      · intro r hr
        rcases List.mem_cons.mp hr with rfl | hr
        · exact ⟨hclt, hrep, by simpa [Net.setClient] using hlt⟩
        · exact hset.requests r hr
      · intro job hjob
        exact List.mem_cons_of_mem _ (h.jobs job hjob)
  | finish clt xid =>
      obtain ⟨c, hfinish, rfl⟩ := Option.map_eq_some_iff.mp hstep
      obtain ⟨hcounts, hlimit⟩ := (h.clients clt).finish hfinish
      exact h.setClient hcounts hlimit.ge
  | receive clt pdu =>
      simp only [Net.step] at hstep
      split_ifs at hstep with hreply
      cases hstep
      exact h.setClient ((h.clients clt).updateXidRep (h.replies _ hreply)) le_rfl
  | bound clt r =>
      cases hstep
      have hcounts : ((s.client clt).bound r).Counts := { h.clients clt with }
      exact h.setClient hcounts le_rfl
  | cancel clt =>
      cases hstep
      have hcounts : (s.client clt).cancel.Counts := { h.clients clt with }
      exact h.setClient hcounts le_rfl
  | dispatch req =>
      simp only [Net.step] at hstep
      split_ifs at hstep with hreq
      obtain ⟨⟨server, pdu⟩, hdispatch, rfl⟩ := Option.map_eq_some_iff.mp hstep
      exact h.dispatch hreq hsettled hdispatch
  | execute req buf ret body =>
      obtain ⟨server, hexecute, rfl⟩ := Option.map_eq_some_iff.mp hstep
      exact h.execute hexecute
  | addReply req buf =>
      obtain ⟨server, hadd, rfl⟩ := Option.map_eq_some_iff.mp hstep
      exact h.addReply hadd
  | send req buf resend junk =>
      obtain ⟨⟨server, pdu⟩, hsend, rfl⟩ := Option.map_eq_some_iff.mp hstep
      exact h.send hsend

theorem Net.Ordered.atMostOnce (h : s.Ordered) : s.AtMostOnce := by
  constructor
  · exact h.server.once
  · intro cell hcell pdu
    have hstored := h.server.resent cell hcell
    constructor
    · intro hpdu
      exact congrArg Cell.pdu (h.server.unique cell hstored _ hpdu rfl rfl)
    · rintro rfl
      exact hstored
  · intro req buf hjob
    exact addReply_isSome ⟨_, (h.server.jobs _ hjob).1, rfl⟩

/-- **At most once.**  In every run in which no client calls after its xids have wrapped around
    and no request acknowledges one that the server still works on. -/
theorem atMostOnce_of_orderly
    (h : (net nonce procs).Reach (fun state action => state.orderly action = true) s) :
    s.AtMostOnce := by
  have hordered : s.Ordered := by
    apply h.invariant (P := Net.Ordered)
    · rintro start rfl
      exact ⟨fun _ => Rpcc.counts_new, nofun, nofun, nofun, Rpcs.tidy_new nonce procs⟩
    · intro state next action hstate hguard hstep
      exact hstate.step hguard hstep
  exact hordered.atMostOnce

end Runs

/-! ## 6. Concrete runs

The server has nonce 9 and one procedure besides `bind`, the client has nonce 5. -/

def noReply : ReplyPdu := ⟨0, 0, []⟩

def bindRequest : Request := ⟨5, 1, bindProc, 0, 0⟩
def secondRequest : Request := ⟨5, 2, 2, 9, 1⟩
def thirdRequest : Request := ⟨5, 3, 2, 9, 2⟩
def fourthRequest : Request := ⟨5, 4, 2, 9, 3⟩

/-- A call from the request to the return of `call1`. -/
def served (req : Request) (buf : Nat) (body : List UInt8) : List Net.Action :=
  [.call 5 req.proc, .dispatch req, .execute req buf 0 body, .addReply req buf,
    .send req buf false noReply, .receive 5 ⟨req.xid, 0, body⟩, .finish 5 req.xid]

def bindAndCall : List Net.Action :=
  served bindRequest 100 [] ++ [.bound 5 9] ++ served secondRequest 200 [65]

/-- A duplicate of the second request is answered with the stored reply. -/
theorem atMostOnce_duplicate :
    ∃ s, (net 9 [bindProc, 2]).Reach (fun state action => state.orderly action = true) s ∧
      (s.server.news, s.server.resent) = ([(5, 2), (5, 1)], [⟨5, 2, ⟨2, 0, [65]⟩⟩]) ∧
      s.AtMostOnce := by
  obtain ⟨s, hreach, hview⟩ : ∃ s, (net 9 [bindProc, 2]).Reach
      (fun state action => state.orderly action = true) s ∧
      (s.server.news, s.server.resent) = ([(5, 2), (5, 1)], [⟨5, 2, ⟨2, 0, [65]⟩⟩]) :=
    System.Reach.of_exec Net.orderly
      (bindAndCall ++ [.dispatch secondRequest, .send secondRequest 200 true noReply]) rfl
      (fun _ _ h => h) (by decide +kernel)
  exact ⟨s, hreach, hview, atMostOnce_of_orderly hreach⟩

/-- The second and the third call are over and the fourth one says so.  A thread that has
    found a duplicate of the second request DONE sends from a buffer that the fourth request has
    freed and that by then holds the reply to the fourth request. -/
def resentFromFreedBuffer : List Net.Action :=
  bindAndCall ++ served thirdRequest 300 [66] ++
    [.call 5 2, .dispatch secondRequest, .dispatch fourthRequest,
      .execute fourthRequest 200 0 [67], .send secondRequest 200 true noReply]

theorem done_answer_from_freed_buffer :
    ¬ ∀ s, (net 9 [bindProc, 2]).Reach anyStep s →
      s.server.news.Nodup ∧ ∀ cell ∈ s.server.resent, ∀ pdu : ReplyPdu,
        ⟨cell.clt, cell.xid, pdu⟩ ∈ s.server.stored ↔ pdu = cell.pdu := by
  intro hclaim
  obtain ⟨s, hreach, hview⟩ : ∃ s, (net 9 [bindProc, 2]).Reach anyStep s ∧
      (s.server.resent, s.server.stored) = ([⟨5, 2, ⟨4, 0, [67]⟩⟩],
        [⟨5, 3, ⟨3, 0, [66]⟩⟩, ⟨5, 2, ⟨2, 0, [65]⟩⟩, ⟨5, 1, ⟨1, 0, []⟩⟩]) :=
    System.Reach.of_exec (fun _ _ => true) resentFromFreedBuffer rfl (fun _ _ _ => trivial)
      (by decide +kernel)
  obtain ⟨hresent, hstored⟩ := Prod.mk.inj hview
  have hcell := (hclaim s hreach).2 ⟨5, 2, ⟨4, 0, [67]⟩⟩ (by simp [hresent]) ⟨4, 0, [67]⟩
  rw [hstored] at hcell
  exact absurd (hcell.mpr rfl) (by decide)

/-! The other condition is needed as well.  After `2^32 - 1` calls that all time out the next
xid is 0, then 1, and `xid_rep` is still `2^32 - 1`, which empties the window. -/

def boundClient (xid front : Nat) (calls : List Nat) : Rpcc where
  srvNonce := 9
  bindDone := true
  xid := xid % xidBound
  destroyWait := false
  calls := calls
  xidRepWindow := [front]

/-- The server has executed the first call of the client and nothing else. -/
def Rpcs.servedFirst (s : Rpcs) : Bool :=
  s.nonce == 9 && s.procs == [bindProc, 2] && s.replyWindow 5 == [⟨1, some 100⟩] &&
    s.jobs == [] && s.news == [(5, 1)]

/-- The client is bound and its calls up to xid `k` are over. -/
structure Net.GaveUp (k : Nat) (s : Net) : Prop where
  client : s.client 5 = boundClient (k + 1) k []
  server : s.server.servedFirst = true

/-- In the eyes of the server xid 1 is new again when `xid_rep` is the last xid. -/
theorem Rpcs.dispatch_wrapped {s : Rpcs} (h : s.servedFirst = true) :
    ∃ t, s.dispatch ⟨5, 1, 2, 9, xidBound - 1⟩ = some (t, none) ∧ t.news = [(5, 1), (5, 1)] := by
  simp only [Rpcs.servedFirst, Bool.and_eq_true, beq_iff_eq] at h
  obtain ⟨⟨⟨⟨hnonce, hprocs⟩, hwindow⟩, -⟩, hnews⟩ := h
  have hout : checkduplicateAndUpdate [⟨1, some 100⟩] 1 (xidBound - 1) = (.new, [⟨1, none⟩]) := by
    decide
  refine ⟨{ s.retain ⟨5, 1, 2, 9, xidBound - 1⟩ [⟨1, none⟩] with
    jobs := .running ⟨5, 1, 2, 9, xidBound - 1⟩ :: s.jobs, news := (5, 1) :: s.news }, ?_, ?_⟩
  · simp [Rpcs.dispatch, hnonce, hprocs, hwindow, hout, Rpcs.retain, Rpcs.free]
  · simp [hnews]

theorem updateXidRep_succ {k : Nat} (hk : k + 1 < xidBound) :
    updateXidRep (k + 1) [k] = [k + 1] := by
  have hmod : (k + 1) % xidBound = k + 1 := Nat.mod_eq_of_lt hk
  have hle : ¬ k + 1 ≤ k := by omega
  have hlt : ¬ k > k + 1 := by omega
  simp only [updateXidRep, insertXid, if_neg hle, if_neg hlt, compress]
  simp [hmod]

section GaveUp

variable {k : Nat} {s : Net}

theorem Net.step_call {xid front : Nat} (h : s.client 5 = boundClient xid front []) :
    ∃ t, s.step (.call 5 2) = some t ∧ t.server = s.server ∧
      t.client 5 = boundClient (xid + 1) front [xid % xidBound] ∧
      ⟨5, xid % xidBound, 2, 9, front⟩ ∈ t.requests := by
  have hcall : (boundClient xid front []).call1 5 2 =
      some (boundClient (xid + 1) front [xid % xidBound], ⟨5, xid % xidBound, 2, 9, front⟩) := by
    simp [Rpcc.call1, boundClient, bindProc, Rpcc.front]
  refine ⟨{ s.setClient 5 (boundClient (xid + 1) front [xid % xidBound]) with
    requests := ⟨5, xid % xidBound, 2, 9, front⟩ :: s.requests }, ?_, rfl, ?_,
    List.mem_cons_self⟩
  · simp [Net.step, h, hcall]
  · simp [Net.setClient]

theorem Net.step_finish {xid front x : Nat} (h : s.client 5 = boundClient xid front [x]) :
    ∃ t, s.step (.finish 5 x) = some t ∧ t.server = s.server ∧
      t.client 5 = { boundClient xid front [] with xidRepWindow := updateXidRep x [front] } := by
  refine ⟨s.setClient 5 { boundClient xid front [] with xidRepWindow := updateXidRep x [front] },
    ?_, rfl, by simp [Net.setClient]⟩
  simp [Net.step, h, Rpcc.finish, boundClient, Rpcc.updateXidRep]

/-- One more call that times out. -/
theorem Net.GaveUp.next (h : s.GaveUp k) (hk : k + 1 < xidBound)
    (hreach : (net 9 [bindProc, 2]).Reach (fun state action => state.settled action = true) s) :
    ∃ t, (net 9 [bindProc, 2]).Reach (fun state action => state.settled action = true) t ∧
      t.GaveUp (k + 1) := by
  have hmod : (k + 1) % xidBound = k + 1 := Nat.mod_eq_of_lt hk
  obtain ⟨t, hcall, htserver, htclient, -⟩ := Net.step_call h.client
  rw [hmod] at htclient
  obtain ⟨u, hfinish, huserver, huclient⟩ := Net.step_finish htclient
  rw [updateXidRep_succ hk] at huclient
  have hcallguard : s.settled (.call 5 2) = true := rfl
  have hfinishguard : t.settled (.finish 5 (k + 1)) = true := rfl
  refine ⟨u, (hreach.step hcallguard hcall).step hfinishguard hfinish, huclient, ?_⟩
  rw [huserver, htserver, h.server]

theorem Net.GaveUp.many (h : s.GaveUp k) {m : Nat} (hkm : k ≤ m) (hm : m < xidBound)
    (hreach : (net 9 [bindProc, 2]).Reach (fun state action => state.settled action = true) s) :
    ∃ t, (net 9 [bindProc, 2]).Reach (fun state action => state.settled action = true) t ∧
      t.GaveUp m := by
  induction m, hkm using Nat.le_induction with
  | base => exact ⟨s, hreach, h⟩
  | succ m hkm ih =>
      obtain ⟨t, htreach, ht⟩ := ih (by omega)
      exact ht.next hm htreach

end GaveUp

/-- The first call is executed.  Then all calls up to the wrap time out, and a new call with
    xid 1 is executed. -/
theorem wrapped_xid_is_new_again :
    ∃ s, (net 9 [bindProc, 2]).Reach (fun state action => state.settled action = true) s ∧
      ¬ s.server.news.Nodup := by
  obtain ⟨first, hfirst, hview⟩ : ∃ s, (net 9 [bindProc, 2]).Reach
      (fun state action => state.settled action = true) s ∧
      (s.client 5, s.server.servedFirst) = (boundClient 2 1 [], true) :=
    System.Reach.of_exec Net.settled (served bindRequest 100 [] ++ [.bound 5 9]) rfl
      (fun _ _ h => h) (by decide +kernel)
  obtain ⟨hclient, hserver⟩ := Prod.mk.inj hview
  have hgave : first.GaveUp 1 := ⟨hclient, hserver⟩
  -- the calls up to the last xid before the wrap
  obtain ⟨s, hreach, hs⟩ := hgave.many (m := xidBound - 1) (by decide) (by decide) hfirst
  -- the call with xid 0
  obtain ⟨t, hcall, htserver, htclient, -⟩ := Net.step_call hs.client
  have hcallguard : s.settled (.call 5 2) = true := rfl
  have hzero : (xidBound - 1 + 1) % xidBound = 0 := by decide
  rw [hzero] at htclient
  obtain ⟨u, hfinish, huserver, huclient⟩ := Net.step_finish htclient
  have hfinishguard : t.settled (.finish 5 0) = true := rfl
  -- the call with xid 1
  have hsame : u.client 5 = boundClient (xidBound - 1 + 1 + 1) (xidBound - 1) [] := by
    rw [huclient]
    decide
  obtain ⟨v, hcall', hvserver, -, hrequest⟩ := Net.step_call hsame
  have hcallguard' : u.settled (.call 5 2) = true := rfl
  have hvreach := ((hreach.step hcallguard hcall).step hfinishguard hfinish).step hcallguard' hcall'
  have hv : v.server.servedFirst = true := by
    rw [hvserver, huserver, htserver]
    exact hs.server
  have hone : (xidBound - 1 + 1 + 1) % xidBound = 1 := by decide
  rw [hone] at hrequest
  obtain ⟨server, hdispatch, hnews⟩ := Rpcs.dispatch_wrapped hv
  have hstep : v.step (.dispatch ⟨5, 1, 2, 9, xidBound - 1⟩) =
      some { v with server := server, replies := v.replies } := by
    simp [Net.step, hrequest, hdispatch]
  have hidle : v.server.jobs = [] := by
    simp only [Rpcs.servedFirst, Bool.and_eq_true, beq_iff_eq] at hv
    exact hv.1.2
  have hguard : v.settled (.dispatch ⟨5, 1, 2, 9, xidBound - 1⟩) = true := by
    simp [Net.settled, hidle]
  refine ⟨_, hvreach.step hguard hstep, ?_⟩
  rw [hnews]
  decide

end DistributedLab.Rpc
