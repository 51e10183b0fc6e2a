import DistributedLab.RpcAtMostOnce

/-!
# What trimming a reply window loses

A request makes the server drop the entries below its `xid_rep`.  The client has sent this
number because the calls up to it are over, but a call is also over when it has timed out,
and of such a call the server may still be running the handler, or may never have heard.

In the first case the entry that is dropped is one that `add_reply` will look for.  In the
second case the window has no entry for `xid_rep`, which otherwise stays in it and marks
where it begins: a request that empties the window becomes its front, and the requests
between `xid_rep` and this front, although the server has not seen them, are FORGOTTEN.
-/

namespace DistributedLab.Rpc

open Transition

/-! ## 1. Entries that are waited for -/

/-- The requests whose handler runs or whose reply is about to be stored. -/
def Rpcs.inProgress (s : Rpcs) : List (Nat × Nat) := s.jobs.filterMap Job.pending

/-- The windows are sorted and have an entry for each request in progress. -/
structure Rpcs.Awaited (s : Rpcs) : Prop where
  sorted : ∀ clt, Sorted (s.replyWindow clt)
  entry : ∀ key ∈ s.inProgress, key.1 ≠ 0 → ∃ e ∈ s.replyWindow key.1, e.xid = key.2

/-- Whether a request comes to `checkduplicate_and_update`. -/
def Rpcs.checks (s : Rpcs) (req : Request) : Bool :=
  (req.srvNonce == 0 || req.srvNonce == s.nonce) && s.procs.contains req.proc && req.clt != 0

/-- What `dispatch` does to the windows and to the requests in progress. -/
theorem Rpcs.dispatch_cases {s t : Rpcs} {req : Request} {pdu : Option ReplyPdu}
    (h : s.dispatch req = some (t, pdu)) :
    t.checks = s.checks ∧
    ((s.checks req = false ∧ t.replyWindow = s.replyWindow ∧
      ∀ key ∈ t.inProgress, key ∈ s.inProgress ∨ key.1 = 0) ∨
      s.checks req = true ∧ ∃ state w,
        checkduplicateAndUpdate (s.replyWindow req.clt) req.xid req.xidRep = (state, w) ∧
        t.replyWindow = Function.update s.replyWindow req.clt w ∧
        ∀ key ∈ t.inProgress,
          key ∈ s.inProgress ∨ key = (req.clt, req.xid) ∧ state = .new) := by
  unfold Rpcs.dispatch at h
  split_ifs at h with hold hproc hclt
  · cases h
    exact ⟨rfl, .inl ⟨by simp [Rpcs.checks, hold], rfl, fun key hkey => .inl hkey⟩⟩
  · cases h
    refine ⟨rfl, .inl ⟨by simp [Rpcs.checks, hclt], rfl, fun key hkey => ?_⟩⟩
    rcases List.mem_cons.mp hkey with rfl | hkey
    · exact .inr hclt
    · exact .inl hkey
  · have hnonce : req.srvNonce = 0 ∨ req.srvNonce = s.nonce := by
      by_contra hnot
      exact hold (not_or.mp hnot)
    have hchecks : s.checks req = true := by simpa [Rpcs.checks, hclt, hproc] using hnonce
    rcases hout : checkduplicateAndUpdate (s.replyWindow req.clt) req.xid req.xidRep
      with ⟨state, w⟩
    rw [hout] at h
    cases state with
    | new =>
        cases h
        refine ⟨rfl, .inr ⟨hchecks, .new, w, rfl, rfl, fun key hkey => ?_⟩⟩
        rcases List.mem_cons.mp hkey with rfl | hkey
        · exact .inr ⟨rfl, rfl⟩
        · exact .inl hkey
    | inprogress | done buf | forgotten =>
        cases h
        exact ⟨rfl, .inr ⟨hchecks, _, w, rfl, rfl, fun key hkey => .inl hkey⟩⟩

theorem Rpcs.send_frame {s t : Rpcs} {req : Request} {buf : Nat} {resend : Bool}
    {junk pdu : ReplyPdu} (h : s.send req buf resend junk = some (t, pdu)) :
    t.checks = s.checks ∧ t.replyWindow = s.replyWindow ∧
      t.jobs = s.jobs.erase (.sending req buf resend) := by
  by_cases hjob : .sending req buf resend ∈ s.jobs
  swap
  · rw [Rpcs.send, if_neg hjob] at h
    cases h
  simp only [Rpcs.send, if_pos hjob, Option.some.injEq, Prod.mk.injEq] at h
  obtain ⟨rfl, -⟩ := h
  by_cases hclt : req.clt = 0
  · rw [if_pos hclt]
    exact ⟨rfl, rfl, rfl⟩
  · rw [if_neg hclt]
    exact ⟨rfl, rfl, rfl⟩

/-- A request that is not FORGOTTEN has an entry afterwards. -/
theorem Outcome.entry {w next : List ReplyT} {xid : Nat} {state : RpcState}
    (h : Outcome w xid state next) (hstate : state ≠ .forgotten) : ∃ e ∈ next, e.xid = xid := by
  cases h with
  | new before after => exact ⟨_, List.mem_append_right before List.mem_cons_self, rfl⟩
  | inprogress hmem => exact ⟨_, hmem, rfl⟩
  | done hmem => exact ⟨_, hmem, rfl⟩
  | forgotten => exact absurd rfl hstate

/-- A request that has no entry is NEW or FORGOTTEN. -/
theorem Outcome.new_or_forgotten {w next : List ReplyT} {xid : Nat} {state : RpcState}
    (h : Outcome w xid state next) (hnone : ∀ e ∈ w, e.xid ≠ xid) :
    state = .new ∨ state = .forgotten := by
  cases h with
  | new => exact .inl rfl
  | inprogress hmem => exact absurd rfl (hnone _ hmem)
  | done hmem => exact absurd rfl (hnone _ hmem)
  | forgotten => exact .inr rfl

section Server

variable {s t : Rpcs} {req : Request}

theorem Rpcs.Awaited.dispatch {pdu : Option ReplyPdu} (h : s.Awaited)
    (hspares : ∀ key ∈ s.inProgress, key.1 = req.clt → req.xidRep ≤ key.2)
    (hstep : s.dispatch req = some (t, pdu)) : t.Awaited := by
  obtain ⟨-, ⟨-, hwindow, hjobs⟩ | ⟨-, state, w, hcheck, hwindow, hjobs⟩⟩ :=
    Rpcs.dispatch_cases hstep
  · constructor
    · rw [hwindow]
      exact h.sorted
    · intro key hkey hclt
      rw [hwindow]
      exact h.entry key ((hjobs key hkey).resolve_right hclt) hclt
  · have hout := @outcome_classify _ req.xid ((h.sorted req.clt).trim req.xidRep)
    unfold checkduplicateAndUpdate at hcheck
    rw [hcheck] at hout
    constructor
    · intro clt
      rw [hwindow]
      by_cases hclt : clt = req.clt
      · subst hclt
        rw [Function.update_self]
        exact hout.sorted ((h.sorted _).trim _)
      · rw [Function.update_of_ne hclt]
        exact h.sorted clt
    · intro key hkey hclt
      rw [hwindow]
      rcases hjobs key hkey with hold | ⟨rfl, rfl⟩
      · obtain ⟨e, hmem, hxid⟩ := h.entry key hold hclt
        by_cases hsame : key.1 = req.clt
        · -- the entry is not below `xid_rep`
          have hle := hspares key hold hsame
          rw [hsame] at hmem ⊢
          rw [Function.update_self]
          refine ⟨e, hout.subset ((h.sorted _).mem_trim.mpr ⟨hmem, ?_⟩), hxid⟩
          omega
        · rw [Function.update_of_ne hsame]
          exact ⟨e, hmem, hxid⟩
      · rw [Function.update_self]
        exact hout.entry (by simp)

theorem Rpcs.Awaited.execute {buf : Nat} {ret : Int} {body : List UInt8} (h : s.Awaited)
    (hstep : s.execute req buf ret body = some t) : t.Awaited := by
  unfold Rpcs.execute at hstep
  split_ifs at hstep with hguard
  cases hstep
  refine ⟨h.sorted, fun key hkey => h.entry key ?_⟩
  -- the request stays in progress
  rcases List.mem_cons.mp hkey with rfl | hkey
  · exact List.mem_filterMap.mpr ⟨_, hguard.1, rfl⟩
  · exact (List.erase_sublist.filterMap Job.pending).subset hkey

theorem Rpcs.Awaited.addReply {buf : Nat} (h : s.Awaited)
    (hstep : s.addReply req buf = some t) : t.Awaited := by
  unfold Rpcs.addReply at hstep
  split_ifs at hstep with hjob hclt
  · cases hstep
    refine ⟨h.sorted, fun key hkey => h.entry key ?_⟩
    exact (List.erase_sublist.filterMap Job.pending).subset hkey
  · obtain ⟨w, hadd, rfl⟩ := Option.map_eq_some_iff.mp hstep
    have hxids := addReply_xids hadd
    constructor
    · intro clt
      by_cases hsame : clt = req.clt
      · subst hsame
        simpa using (h.sorted _).addReply hadd
      · simpa [hsame] using h.sorted clt
    · intro key hkey hne
      obtain ⟨e, hmem, hxid⟩ :=
        h.entry key ((List.erase_sublist.filterMap Job.pending).subset hkey) hne
      by_cases hsame : key.1 = req.clt
      · rw [hsame] at hmem ⊢
        have hmem' : key.2 ∈ w.map ReplyT.xid := by
          rw [hxids]
          exact List.mem_map.mpr ⟨e, hmem, hxid⟩
        obtain ⟨e', he', hxid'⟩ := List.mem_map.mp hmem'
        exact ⟨e', by simpa using he', hxid'⟩
      · exact ⟨e, by simpa [hsame] using hmem, hxid⟩

theorem Rpcs.Awaited.send {buf : Nat} {resend : Bool} {junk pdu : ReplyPdu} (h : s.Awaited)
    (hstep : s.send req buf resend junk = some (t, pdu)) : t.Awaited := by
  obtain ⟨-, hwindow, hjobs⟩ := Rpcs.send_frame hstep
  constructor
  · rw [hwindow]
    exact h.sorted
  · intro key hkey
    rw [Rpcs.inProgress, hjobs] at hkey
    rw [hwindow]
    exact h.entry key ((List.erase_sublist.filterMap Job.pending).subset hkey)

end Server

/-- A request does not acknowledge one of the same client that is in progress. -/
def Net.sparing (s : Net) : Net.Action → Bool
  | .dispatch req => s.server.inProgress.all fun key =>
      key.1 != req.clt || decide (req.xidRep ≤ key.2)
  | _ => true

theorem Net.awaited_step {s t : Net} {action : Net.Action} (h : s.server.Awaited)
    (hguard : s.sparing action = true) (hstep : s.step action = some t) : t.server.Awaited := by
  cases action with
  | call clt proc =>
      simp only [Net.step] at hstep
      split_ifs at hstep
      obtain ⟨out, -, rfl⟩ := Option.map_eq_some_iff.mp hstep
      exact h
  | finish clt xid =>
      obtain ⟨c, -, rfl⟩ := Option.map_eq_some_iff.mp hstep
      exact h
  | receive clt pdu =>
      simp only [Net.step] at hstep
      split_ifs at hstep
      cases hstep
      exact h
  | bound clt r =>
      cases hstep
      exact h
  | cancel clt =>
      cases hstep
      exact h
  | dispatch req =>
      simp only [Net.step] at hstep
      split_ifs at hstep
      obtain ⟨⟨server, pdu⟩, hdispatch, rfl⟩ := Option.map_eq_some_iff.mp hstep
      refine h.dispatch ?_ hdispatch
      intro key hkey hsame
      have hall := List.all_eq_true.mp hguard key hkey
      simpa [hsame] using hall
  | execute req buf ret body =>
      obtain ⟨server, hexecute, rfl⟩ := Option.map_eq_some_iff.mp hstep
      exact h.execute hexecute
  | addReply req buf =>
      obtain ⟨server, hadd, rfl⟩ := Option.map_eq_some_iff.mp hstep
      exact h.addReply hadd
  | send req buf resend junk =>
      obtain ⟨⟨server, pdu⟩, hsend, rfl⟩ := Option.map_eq_some_iff.mp hstep
      exact h.send hsend

/-- **`add_reply` finds its entry**, in every run in which no request acknowledges one that is in
    progress. -/
theorem addReply_finds_entry {s : Net} {nonce : Nat} {procs : List Nat}
    (h : (net nonce procs).Reach (fun state action => state.sparing action = true) s)
    {req : Request} {buf : Nat} (hjob : .replying req buf ∈ s.server.jobs) (hclt : req.clt ≠ 0) :
    ∃ e ∈ s.server.replyWindow req.clt, e.xid = req.xid := by
  have hawaited : s.server.Awaited := by
    apply h.invariant (P := fun s => s.server.Awaited)
    · rintro start rfl
      exact ⟨fun _ => List.Pairwise.nil, by simp [Rpcs.inProgress, Rpcs.new]⟩
    · intro state next action hstate hguard hstep
      exact Net.awaited_step hstate hguard hstep
  exact hawaited.entry (req.clt, req.xid) (List.mem_filterMap.mpr ⟨_, hjob, rfl⟩) hclt

/-- The second call is over when its handler has run, but before its reply is stored. -/
def lateReply : List Net.Action :=
  served bindRequest 100 [] ++ [.bound 5 9, .call 5 2, .dispatch secondRequest, .finish 5 2] ++
    [.call 5 2, .dispatch thirdRequest, .execute secondRequest 200 0 [65]]

theorem addReply_finds_entry_lateReply :
    ∃ s, (net 9 [bindProc, 2]).Reach (fun state action => state.sparing action = true) s ∧
      .replying secondRequest 200 ∈ s.server.jobs ∧ ∃ e ∈ s.server.replyWindow 5, e.xid = 2 := by
  obtain ⟨s, hreach, hjobs⟩ : ∃ s, (net 9 [bindProc, 2]).Reach
      (fun state action => state.sparing action = true) s ∧
      s.server.jobs = [.replying secondRequest 200, .running thirdRequest] :=
    System.Reach.of_exec Net.sparing lateReply rfl (fun _ _ h => h) (by decide +kernel)
  have hjob : .replying secondRequest 200 ∈ s.server.jobs := by simp [hjobs]
  exact ⟨s, hreach, hjob, addReply_finds_entry hreach hjob (by decide)⟩

/-- The second call times out while its handler runs.  The third one is served, and the fourth one
    says that the calls up to the third one are over. -/
def trimmedInProgress : List Net.Action :=
  served bindRequest 100 [] ++ [.bound 5 9, .call 5 2, .dispatch secondRequest, .finish 5 2] ++
    served thirdRequest 300 [66] ++
    [.call 5 2, .dispatch fourthRequest, .execute secondRequest 200 0 [65]]

theorem addReply_writes_through_end :
    ¬ ∀ s, (net 9 [bindProc, 2]).Reach anyStep s → ∀ req buf, .replying req buf ∈ s.server.jobs →
      req.clt ≠ 0 → ∃ e ∈ s.server.replyWindow req.clt, e.xid = req.xid := by
  intro hclaim
  obtain ⟨s, hreach, hview⟩ : ∃ s, (net 9 [bindProc, 2]).Reach anyStep s ∧
      (s.server.jobs, s.server.replyWindow 5) =
        ([.replying secondRequest 200, .running fourthRequest], [⟨3, some 300⟩, ⟨4, none⟩]) :=
    System.Reach.of_exec (fun _ _ => true) trimmedInProgress rfl (fun _ _ _ => trivial)
      (by decide +kernel)
  obtain ⟨hjobs, hwindow⟩ := Prod.mk.inj hview
  have hentry := hclaim s hreach secondRequest 200 (by simp [hjobs]) (by decide)
  rw [show secondRequest.clt = 5 from rfl, hwindow] at hentry
  exact absurd hentry (by decide)

/-! ## 2. Where a window begins

The requests of one client that the server has classified, and the window that they leave.
Its entries are not below any `xid_rep`, and it begins right at the largest one: there is an
entry for this xid or for the next one. -/

structure Attached (rs : List Request) (w : List ReplyT) : Prop where
  sorted : Sorted w
  heard : ∀ e ∈ w, ∃ r ∈ rs, r.xid = e.xid
  above : ∀ e ∈ w, ∀ r ∈ rs, r.xidRep ≤ e.xid
  anchor : rs ≠ [] → ∃ e ∈ w, ∃ r ∈ rs, e.xid ≤ r.xidRep + 1
  kept : ∀ r ∈ rs, (∀ r' ∈ rs, r'.xidRep < r.xid) → ∃ e ∈ w, e.xid = r.xid

theorem attached_nil : Attached [] [] :=
  ⟨List.Pairwise.nil, by simp, by simp, by simp, by simp⟩

section Attached

variable {rs : List Request} {w next : List ReplyT} {req : Request} {state : RpcState}

theorem Attached.congr (h : Attached rs w) (hxids : next.map ReplyT.xid = w.map ReplyT.xid) :
    Attached rs next := by
  have hto : ∀ {x}, (∃ e ∈ w, e.xid = x) → ∃ e ∈ next, e.xid = x := by
    intro x hx
    rw [← List.mem_map, hxids]
    exact List.mem_map.mpr hx
  have hfrom : ∀ {e}, e ∈ next → ∃ e' ∈ w, e'.xid = e.xid := by
    intro e he
    rw [← List.mem_map, ← hxids]
    exact List.mem_map_of_mem he
  constructor
  · unfold Sorted
    rw [← List.pairwise_map (f := ReplyT.xid) (R := (· < ·)), hxids, List.pairwise_map]
    exact h.sorted
  · intro e he
    obtain ⟨e', he', hxid⟩ := hfrom he
    rw [← hxid]
    exact h.heard e' he'
  · intro e he
    obtain ⟨e', he', hxid⟩ := hfrom he
    rw [← hxid]
    exact h.above e' he'
  · intro hne
    obtain ⟨e, he, r, hr, hle⟩ := h.anchor hne
    obtain ⟨e', he', hxid⟩ := hto ⟨e, he, rfl⟩
    exact ⟨e', he', r, hr, hxid ▸ hle⟩
  · intro r hr hlt
    exact hto (h.kept r hr hlt)

/-- A new entry in a window that is not empty comes after another one. -/
theorem Outcome.above_of_new {e : ReplyT} (hout : Outcome w req.xid state next) (he : e ∈ next)
    (hnew : e ∉ w) (hne : w ≠ []) : e.xid = req.xid ∧ ∃ e' ∈ w, e'.xid < req.xid := by
  have hxid : e = ⟨req.xid, none⟩ := (hout.mem he).resolve_left hnew
  refine ⟨by rw [hxid], ?_⟩
  cases hout with
  | new before after hw hbefore hafter hfront =>
      rcases before with _ | ⟨first, before⟩
      · rw [List.nil_append] at hw
        exact absurd rfl (hfront (hw ▸ hne))
      · exact ⟨first, by simp [hw], hbefore first List.mem_cons_self⟩
  | inprogress => exact absurd he hnew
  | done => exact absurd he hnew
  | forgotten => exact absurd he hnew

/-- The condition on a request: the server has heard of `xid_rep` or of the xid after it, be it
    with this request. -/
def Marked (rs : List Request) (req : Request) : Prop :=
  (∃ r ∈ rs, r.xid = req.xidRep ∨ r.xid = req.xidRep + 1) ∨ req.xid = req.xidRep + 1

/-- Where the window begins after the request, and why it is FORGOTTEN if it is. -/
theorem Attached.anchor_checkduplicate (h : Attached rs w) (hrep : req.xidRep < req.xid)
    (hmono : ∀ r ∈ rs, req.xid < r.xid → req.xidRep ≤ r.xidRep) (hmarked : Marked rs req)
    (hout : Outcome (trim req.xidRep w) req.xid state next) :
    (∃ e ∈ next, ∃ r ∈ req :: rs, e.xid ≤ r.xidRep + 1) ∧
      (state = .forgotten → ∃ r ∈ rs, req.xid ≤ r.xidRep) := by
  have hforgotten : state = .forgotten → ∀ e ∈ trim req.xidRep w, req.xid < e.xid := by
    rintro rfl
    cases hout with
    | forgotten _ hall => exact hall
  by_cases hold : ∃ r ∈ rs, req.xidRep ≤ r.xidRep
  · -- nothing is trimmed
    obtain ⟨r, hr, hle⟩ := hold
    obtain ⟨e, he, r₀, hr₀, hbegin⟩ := h.anchor (List.ne_nil_of_mem hr)
    have hetrim : e ∈ trim req.xidRep w :=
      h.sorted.mem_trim.mpr ⟨he, hle.trans (h.above e he r hr)⟩
    refine ⟨⟨e, hout.subset hetrim, r₀, List.mem_cons_of_mem _ hr₀, hbegin⟩, fun hstate => ?_⟩
    have := hforgotten hstate e hetrim
    exact ⟨r₀, hr₀, by omega⟩
  · have hbelow : ∀ r ∈ rs, r.xidRep < req.xidRep := by
      intro r hr
      by_contra hlt
      exact hold ⟨r, hr, Nat.not_lt.mp hlt⟩
    rcases hmarked with ⟨r₀, hr₀, hmark⟩ | hnext
    · -- the entry of the mark is still there
      have hkept : ∀ r ∈ rs, r.xidRep < r₀.xid := by
        intro r hr
        have := hbelow r hr
        omega
      obtain ⟨e, he, hxid⟩ := h.kept r₀ hr₀ hkept
      have hetrim : e ∈ trim req.xidRep w := h.sorted.mem_trim.mpr ⟨he, by omega⟩
      refine ⟨⟨e, hout.subset hetrim, req, List.mem_cons_self, by omega⟩, fun hstate => ?_⟩
      have := hforgotten hstate e hetrim
      omega
    · -- a larger xid would have come with an `xid_rep` that is not smaller
      have hnot : state ≠ .forgotten := by
        rintro rfl
        cases hout with
        | forgotten hne hall =>
            obtain ⟨e, he⟩ := List.exists_mem_of_ne_nil _ hne
            obtain ⟨r, hr, hxid⟩ := h.heard e (h.sorted.mem_trim.mp he).1
            have hlt := hall e he
            have hge := hmono r hr (by omega)
            exact absurd (hbelow r hr) (Nat.not_lt.mpr hge)
      obtain ⟨e, he, hxid⟩ := hout.entry hnot
      exact ⟨⟨e, he, req, List.mem_cons_self, by omega⟩, fun hstate => absurd hstate hnot⟩

/-- **One request.**  A marked request keeps the window attached. -/
theorem Attached.checkduplicate (h : Attached rs w) (hrep : req.xidRep < req.xid)
    (hmono : ∀ r ∈ rs, req.xid < r.xid → req.xidRep ≤ r.xidRep) (hmarked : Marked rs req)
    (hout : Outcome (trim req.xidRep w) req.xid state next) : Attached (req :: rs) next := by
  obtain ⟨hanchor, hforgotten⟩ := h.anchor_checkduplicate hrep hmono hmarked hout
  constructor
  · exact hout.sorted (h.sorted.trim _)
  · intro e he
    rcases hout.mem he with hold | rfl
    · obtain ⟨r, hr, hxid⟩ := h.heard e (h.sorted.mem_trim.mp hold).1
      exact ⟨r, List.mem_cons_of_mem _ hr, hxid⟩
    · exact ⟨req, List.mem_cons_self, rfl⟩
  · intro e he r hr
    by_cases hold : e ∈ trim req.xidRep w
    · obtain ⟨hmem, hle⟩ := h.sorted.mem_trim.mp hold
      rcases List.mem_cons.mp hr with rfl | hr
      · exact hle
      · exact h.above e hmem r hr
    · have hxid : e = ⟨req.xid, none⟩ := (hout.mem he).resolve_left hold
      have hexid : e.xid = req.xid := by rw [hxid]
      rw [hexid]
      rcases List.mem_cons.mp hr with rfl | hr
      · exact hrep.le
      · by_cases hle : r.xidRep ≤ req.xidRep
        · omega
        · -- then nothing was trimmed, and the entry comes after another one
          obtain ⟨e₀, he₀, -⟩ := h.anchor (List.ne_nil_of_mem hr)
          have hne : trim req.xidRep w ≠ [] := by
            have habove := h.above e₀ he₀ r hr
            exact List.ne_nil_of_mem (h.sorted.mem_trim.mpr ⟨he₀, by omega⟩)
          obtain ⟨-, e', he', hlt⟩ := hout.above_of_new he hold hne
          have habove := h.above e' (h.sorted.mem_trim.mp he').1 r hr
          omega
  · exact fun _ => hanchor
  · intro r hr hlt
    rcases List.mem_cons.mp hr with rfl | hr
    · by_cases hstate : state = .forgotten
      · obtain ⟨r', hr', hle⟩ := hforgotten hstate
        exact absurd (hlt r' (List.mem_cons_of_mem _ hr')) (Nat.not_lt.mpr hle)
      · exact hout.entry hstate
    · obtain ⟨e, he, hxid⟩ := h.kept r hr fun r' hr' => hlt r' (List.mem_cons_of_mem _ hr')
      have hreq := hlt req List.mem_cons_self
      exact ⟨e, hout.subset (h.sorted.mem_trim.mpr ⟨he, by omega⟩), hxid⟩

end Attached

/-! ### The number that the client sends -/

theorem insertXid_pairwise {xid : Nat} {window : List Nat} (h : window.Pairwise (· ≤ ·)) :
    (insertXid xid window).Pairwise (· ≤ ·) := by
  induction window with
  | nil => exact List.pairwise_singleton _ _
  | cons y rest ih =>
      obtain ⟨hhead, hrest⟩ := List.pairwise_cons.mp h
      unfold insertXid
      split_ifs with hgt
      · refine List.pairwise_cons.mpr ⟨?_, h⟩
        intro z hz
        rcases List.mem_cons.mp hz with rfl | hz
        · omega
        · have := hhead z hz
          omega
      · refine List.pairwise_cons.mpr ⟨?_, ih hrest⟩
        intro z hz
        rcases mem_insertXid hz with rfl | hz
        · omega
        · exact hhead z hz

theorem compress_sublist (before after : List Nat) :
    (compress before after).Sublist (before ++ after) := by
  induction after generalizing before with
  | nil => simp [compress]
  | cons y after ih =>
      unfold compress
      refine (ih _).trans ?_
      rw [List.append_assoc]
      exact (List.dropWhile_sublist _).append_right _

theorem compress_ne_nil {before : List Nat} (after : List Nat) (h : before ≠ []) :
    compress before after ≠ [] := by
  induction after generalizing before with
  | nil => exact h
  | cons y after ih => exact ih (by simp)

/-- The window of finished calls is not empty and in order. -/
structure InLine (window : List Nat) : Prop where
  ne_nil : window ≠ []
  ascending : window.Pairwise (· ≤ ·)

theorem InLine.head_le {window : List Nat} (h : InLine window) {x : Nat} (hx : x ∈ window) :
    window.headD 0 ≤ x := by
  rcases window with _ | ⟨front, rest⟩
  · cases hx
  · rcases List.mem_cons.mp hx with rfl | hx
    · exact Nat.le_refl _
    · exact (List.pairwise_cons.mp h.ascending).1 x hx

/-- An xid that is not above `y` comes right before it, or the sum wraps around. -/
theorem succ_mod_eq_iff {x y : Nat} (hle : x ≤ y) (hy : y < xidBound) :
    (x + 1) % xidBound = y ↔ x + 1 = y := by
  by_cases hlast : x + 1 = xidBound
  · rw [hlast, Nat.mod_self]
    unfold xidBound at hlast hy ⊢
    omega
  · rw [Nat.mod_eq_of_lt (by omega)]

/-- The front moves on only over xids that are in the window. -/
theorem mem_of_le_compress {before after : List Nat} (hne : before ≠ [])
    (hsorted : (before ++ after).Pairwise (· ≤ ·)) (hbound : ∀ x ∈ before ++ after, x < xidBound)
    {x : Nat} (hlow : before.headD 0 ≤ x) (hx : x ≤ (compress before after).headD 0) :
    x ∈ before ++ after := by
  induction after generalizing before with
  | nil =>
      rcases before with _ | ⟨front, rest⟩
      · exact absurd rfl hne
      · have heq : x = front := Nat.le_antisymm hx hlow
        simp [heq]
  | cons y after ih =>
      have hsub :
          (before.dropWhile (fun front => (front + 1) % xidBound == y) ++ [y] ++ after).Sublist
          (before ++ y :: after) := by
        rw [List.append_assoc]
        exact (List.dropWhile_sublist _).append_right _
      by_cases hle : (before.dropWhile (fun front => (front + 1) % xidBound == y) ++ [y]).headD 0 ≤ x
      · exact hsub.subset (ih (by simp) (hsorted.sublist hsub)
          (fun z hz => hbound z (hsub.subset hz)) hle hx)
      · -- the front has been popped, so `y` comes right after it
        rcases before with _ | ⟨front, rest⟩
        · exact absurd rfl hne
        · have hfy : front ≤ y := (List.pairwise_cons.mp hsorted).1 y (by simp)
          have hy : y < xidBound := hbound y (by simp)
          by_cases hpop : (front + 1) % xidBound = y
          · have hnext : front + 1 = y := (succ_mod_eq_iff hfy hy).mp hpop
            have hhead : (List.dropWhile (fun front => (front + 1) % xidBound == y) (front :: rest) ++
                [y]).headD 0 ≤ y := by
              refine InLine.head_le ⟨by simp, hsorted.sublist ?_⟩ (by simp)
              exact (List.sublist_append_left _ _).trans hsub
            have heq : x = front := by
              rw [List.headD_cons] at hlow
              omega
            simp [heq]
          · rw [List.dropWhile_cons_of_neg (by simpa using hpop)] at hle
            exact absurd hlow hle

theorem InLine.updateXidRep {window : List Nat} (h : InLine window)
    (hbound : ∀ x ∈ window, x < xidBound) {xid : Nat} (hxid : xid < xidBound) :
    InLine (updateXidRep xid window) ∧
      window.headD 0 ≤ (Rpc.updateXidRep xid window).headD 0 ∧
      ∀ x ≤ (Rpc.updateXidRep xid window).headD 0, x ≤ window.headD 0 ∨ x = xid ∨ x ∈ window := by
  rcases window with _ | ⟨front, rest⟩
  · exact absurd rfl h.ne_nil
  · simp only [Rpc.updateXidRep]
    split_ifs with hle
    · exact ⟨h, Nat.le_refl _, fun x hx => .inl hx⟩
    · have hinsert : insertXid xid (front :: rest) = front :: insertXid xid rest := by
        have hnot : ¬ front > xid := by omega
        simp [insertXid, hnot]
      have hsorted : (insertXid xid (front :: rest)).Pairwise (· ≤ ·) :=
        insertXid_pairwise h.ascending
      have hmem : ∀ x ∈ insertXid xid (front :: rest), x = xid ∨ x ∈ front :: rest :=
        fun x hx => mem_insertXid hx
      rw [hinsert] at hsorted hmem ⊢
      have hsub := compress_sublist [front] (insertXid xid rest)
      have hline : InLine (compress [front] (insertXid xid rest)) :=
        ⟨compress_ne_nil _ (by simp), hsorted.sublist hsub⟩
      refine ⟨hline, ?_, ?_⟩
      · have hfirst : (compress [front] (insertXid xid rest)).headD 0 ∈
            front :: insertXid xid rest := by
          apply hsub.subset
          rcases hcomp : compress [front] (insertXid xid rest) with _ | ⟨first, more⟩
          · exact absurd hcomp hline.ne_nil
          · exact List.mem_cons_self
        exact InLine.head_le ⟨by simp, hsorted⟩ hfirst
      · intro x hx
        by_cases hold : x ≤ front
        · exact .inl hold
        · right
          apply hmem
          refine mem_of_le_compress (by simp) hsorted ?_ (Nat.le_of_not_le hold) hx
          intro z hz
          rcases hmem z hz with rfl | hz
          · exact hxid
          · exact hbound z hz

/-- A client whose `xid_rep` covers only calls that are over, or of which the server has heard. -/
structure Rpcc.Keeping (heard : Nat → Prop) (c : Rpcc) : Prop where
  counts : c.Counts
  once : c.calls.Nodup
  line : InLine c.xidRepWindow
  covered : ∀ x, x ≤ c.front ∨ x ∈ c.xidRepWindow → x = 0 ∨ x ∉ c.calls ∨ heard x

/-- What the client has sent stays below its counter and covered by its front. -/
structure Rpcc.Onward (c next : Rpcc) : Prop where
  limit : c.limit ≤ next.limit
  front : c.front ≤ next.front

section Keeping

variable {heard heard' : Nat → Prop} {c next : Rpcc}

theorem Rpcc.keeping_new : Rpcc.new.Keeping heard where
  counts := Rpcc.counts_new
  once := List.nodup_nil
  line := ⟨by decide, List.pairwise_singleton _ _⟩
  covered := fun _ _ => .inr (.inl (List.not_mem_nil))

theorem Rpcc.Keeping.mono (h : c.Keeping heard) (hmono : ∀ x, heard x → heard' x) :
    c.Keeping heard' := by
  refine ⟨h.counts, h.once, h.line, fun x hx => ?_⟩
  rcases h.covered x hx with hzero | hcalls | hheard
  · exact .inl hzero
  · exact .inr (.inl hcalls)
  · exact .inr (.inr (hmono x hheard))

theorem Rpcc.Counts.limit_le (h : c.Counts) : c.limit ≤ xidBound := by
  unfold Rpcc.limit
  split_ifs
  · exact Nat.le_refl _
  · exact h.xid.le

theorem Rpcc.Keeping.updateXidRep (h : c.Keeping heard) {xid : Nat} (hxid : xid < c.limit)
    (hover : xid ∉ c.calls ∨ heard xid) :
    (c.updateXidRep xid).Keeping heard ∧ c.Onward (c.updateXidRep xid) := by
  have hbound := h.counts.limit_le
  obtain ⟨hline, hfront, hcovered⟩ := h.line.updateXidRep
    (fun x hx => (h.counts.window x hx).trans_le hbound) (hxid.trans_le hbound)
  refine ⟨⟨h.counts.updateXidRep hxid, h.once, hline, fun x hx => ?_⟩, Nat.le_refl _, hfront⟩
  have hcases : x = xid ∨ x ≤ c.front ∨ x ∈ c.xidRepWindow := by
    rcases hx with hx | hx
    · rcases hcovered x hx with hold | rfl | hold
      · exact .inr (.inl hold)
      · exact .inl rfl
      · exact .inr (.inr hold)
    · rcases mem_updateXidRep hx with rfl | hold
      · exact .inl rfl
      · exact .inr (.inr hold)
  rcases hcases with rfl | hold
  · exact .inr hover
  · exact h.covered x hold

theorem Rpcc.Keeping.finish (h : c.Keeping heard) {xid : Nat}
    (hstep : c.finish xid = some next) : next.Keeping heard ∧ c.Onward next := by
  unfold Rpcc.finish at hstep
  split_ifs at hstep with hcall
  cases hstep
  have hrest : ({ c with calls := c.calls.erase xid } : Rpcc).Keeping heard := by
    refine ⟨{ h.counts with calls := fun x hx => h.counts.calls x (List.mem_of_mem_erase hx) },
      h.once.erase xid, h.line, fun x hx => ?_⟩
    rcases h.covered x hx with hzero | hcalls | hheard
    · exact .inl hzero
    · exact .inr (.inl fun hx => hcalls (List.mem_of_mem_erase hx))
    · exact .inr (.inr hheard)
  obtain ⟨hkeeping, hlimit, hfront⟩ :=
    hrest.updateXidRep (h.counts.calls xid hcall) (.inl h.once.not_mem_erase)
  exact ⟨hkeeping, hlimit, hfront⟩

theorem Rpcc.Keeping.call1 (h : c.Keeping heard) (hxid : c.xid ≠ 0) {clt proc : Nat}
    {req : Request} (hstep : c.call1 clt proc = some (next, req)) :
    next.Keeping heard ∧ c.Onward next ∧ req.clt = clt ∧ req.xid = c.limit ∧
      req.xidRep = c.front ∧ req.xid < next.limit := by
  have hlimit : c.limit = c.xid := if_neg hxid
  obtain ⟨hcounts, hgrows, hclt, -, hlt⟩ := h.counts.call1 hxid hstep
  unfold Rpcc.call1 at hstep
  split_ifs at hstep
  cases hstep
  refine ⟨⟨hcounts, ?_, h.line, fun x hx => ?_⟩, ⟨by omega, Nat.le_refl _⟩, hclt, hlimit.symm, rfl,
    hlt⟩
  · refine List.nodup_cons.mpr ⟨fun hmem => ?_, h.once⟩
    have := h.counts.calls _ hmem
    omega
  · -- the new xid is above the window
    have hbelow : x < c.xid := by
      rcases hx with hx | hx
      · exact Nat.lt_of_le_of_lt hx (h.counts.front_lt hxid)
      · exact hlimit ▸ h.counts.window x hx
    rcases h.covered x hx with hzero | hcalls | hheard
    · exact .inl hzero
    · refine .inr (.inl fun hmem => ?_)
      rcases List.mem_cons.mp hmem with rfl | hmem
      · exact absurd hbelow (Nat.lt_irrefl _)
      · exact hcalls hmem
    · exact .inr (.inr hheard)

end Keeping

/-! ### The system with the requests that the server has received -/

structure Heard where
  net : Net
  received : List Request

def Heard.step (s : Heard) (action : Net.Action) : Option Heard :=
  (s.net.step action).map fun next =>
    match action with
    | .dispatch req => ⟨next, req :: s.received⟩
    | _ => ⟨next, s.received⟩

def heard (nonce : Nat) (procs : List Nat) : System Heard Net.Action where
  init := fun s => s = ⟨⟨fun _ => Rpcc.new, Rpcs.new nonce procs, [], []⟩, []⟩
  step := Heard.step

/-- The requests of a client that came to `checkduplicate_and_update`. -/
def Heard.classified (s : Heard) (clt : Nat) : List Request :=
  s.received.filter fun r => r.clt == clt && s.net.server.checks r

instance decidableMarked (rs : List Request) (req : Request) : Decidable (Marked rs req) :=
  inferInstanceAs (Decidable (_ ∨ _))

/-- No client calls after its xids have wrapped around, a reply carries the xid of a request that
    the server has received from this client, and a request that is classified is marked. -/
def Heard.anchored (s : Heard) : Net.Action → Bool
  | .call clt _ => (s.net.client clt).xid != 0
  | .receive clt pdu => s.received.any fun r => r.clt == clt && r.xid == pdu.xid
  | .dispatch req => !s.net.server.checks req || decide (Marked (s.classified req.clt) req)
  | _ => true

/-- One of the requests is of this client and has this xid. -/
def Among (rs : List Request) (clt xid : Nat) : Prop := ∃ r ∈ rs, r.clt = clt ∧ r.xid = xid

structure Heard.Traced (s : Heard) : Prop where
  clients : ∀ clt, (s.net.client clt).Keeping (Among s.received clt)
  requests : ∀ r ∈ s.net.requests, r.xidRep < r.xid ∧
    r.xid < (s.net.client r.clt).limit ∧ r.xidRep ≤ (s.net.client r.clt).front
  ordered : ∀ r ∈ s.net.requests, ∀ r' ∈ s.net.requests, r.clt = r'.clt → r.xid < r'.xid →
    r.xidRep ≤ r'.xidRep
  received : ∀ r ∈ s.received, r ∈ s.net.requests
  windows : ∀ clt, Attached (s.classified clt) (s.net.server.replyWindow clt)

section Traced

variable {s : Heard}

theorem Heard.Traced.setClient (h : s.Traced) {clt : Nat} {c : Rpcc}
    (hc : c.Keeping (Among s.received clt)) (honward : (s.net.client clt).Onward c) :
    Heard.Traced ⟨s.net.setClient clt c, s.received⟩ := by
  have hmono : ∀ other, (s.net.client other).Onward ((s.net.setClient clt c).client other) := by
    intro other
    by_cases hother : other = clt
    · subst hother
      simpa [Net.setClient] using honward
    · simpa [Net.setClient, hother] using ⟨Nat.le_refl _, Nat.le_refl _⟩
  refine { h with clients := ?_, requests := ?_, windows := h.windows }
  · intro other
    by_cases hother : other = clt
    · subst hother
      simpa [Net.setClient] using hc
    · simpa [Net.setClient, hother] using h.clients other
  · intro r hr
    obtain ⟨hrep, hlimit, hfront⟩ := h.requests r hr
    exact ⟨hrep, hlimit.trans_le (hmono r.clt).limit, hfront.trans (hmono r.clt).front⟩

/-- A step of the server that is not a new request keeps the xids of the windows. -/
theorem Heard.Traced.server (h : s.Traced) {server : Rpcs} {replies : List (Nat × ReplyPdu)}
    (hchecks : server.checks = s.net.server.checks)
    (hxids : ∀ clt, (server.replyWindow clt).map ReplyT.xid =
      (s.net.server.replyWindow clt).map ReplyT.xid) :
    Heard.Traced ⟨{ s.net with server := server, replies := replies }, s.received⟩ := by
  refine { h with windows := fun clt => ?_ }
  have hclassified : Heard.classified
      ⟨{ s.net with server := server, replies := replies }, s.received⟩ clt = s.classified clt := by
    unfold Heard.classified
    rw [hchecks]
  rw [hclassified]
  exact (h.windows clt).congr (hxids clt)

/-- The requests of one client that were classified so far. -/
theorem Heard.classified_dispatch {req : Request} {next : Net}
    (hchecks : next.server.checks = s.net.server.checks) (clt : Nat) :
    Heard.classified ⟨next, req :: s.received⟩ clt =
      if req.clt = clt ∧ s.net.server.checks req = true then req :: s.classified clt
      else s.classified clt := by
  unfold Heard.classified
  rw [hchecks, List.filter_cons]
  simp

theorem Heard.Traced.mem_classified (h : s.Traced) {clt : Nat} {r : Request}
    (hr : r ∈ s.classified clt) : r ∈ s.received ∧ r.clt = clt ∧ r ∈ s.net.requests := by
  obtain ⟨hreceived, hclt⟩ := List.mem_filter.mp hr
  simp only [Bool.and_eq_true, beq_iff_eq] at hclt
  exact ⟨hreceived, hclt.1, h.received r hreceived⟩

/-- The requests that were classified before are in the order that `Attached` asks for. -/
theorem Heard.Traced.classified_ordered (h : s.Traced) {req r : Request}
    (hreq : req ∈ s.net.requests) (hr : r ∈ s.classified req.clt) (hlt : req.xid < r.xid) :
    req.xidRep ≤ r.xidRep := by
  obtain ⟨-, hclt, hmem⟩ := h.mem_classified hr
  exact h.ordered req hreq r hmem hclt.symm hlt

theorem Heard.Traced.dispatch (h : s.Traced) {req : Request} {server : Rpcs}
    {pdu : Option ReplyPdu} {replies : List (Nat × ReplyPdu)} (hreq : req ∈ s.net.requests)
    (hguard : s.anchored (.dispatch req) = true)
    (hstep : s.net.server.dispatch req = some (server, pdu)) :
    Heard.Traced ⟨{ s.net with server := server, replies := replies }, req :: s.received⟩ := by
  obtain ⟨hchecks, hcases⟩ := Rpcs.dispatch_cases hstep
  refine ⟨?_, h.requests, h.ordered, ?_, ?_⟩
  · intro clt
    refine (h.clients clt).mono ?_
    rintro x ⟨r, hr, hsame⟩
    exact ⟨r, List.mem_cons_of_mem _ hr, hsame⟩
  · intro r hr
    rcases List.mem_cons.mp hr with rfl | hr
    · exact hreq
    · exact h.received r hr
  · intro clt
    rw [Heard.classified_dispatch hchecks]
    rcases hcases with ⟨hnot, hwindow, -⟩ | ⟨hchecked, state, w, hcheck, hwindow, -⟩
    · rw [if_neg (by simp [hnot])]
      dsimp only
      rw [hwindow]
      exact h.windows clt
    · dsimp only
      rw [hwindow]
      by_cases hclt : req.clt = clt
      · subst hclt
        rw [if_pos ⟨rfl, hchecked⟩, Function.update_self]
        have hmarked : Marked (s.classified req.clt) req := by
          simpa [Heard.anchored, hchecked] using hguard
        have hout := @outcome_classify _ req.xid ((h.windows req.clt).sorted.trim req.xidRep)
        unfold checkduplicateAndUpdate at hcheck
        rw [hcheck] at hout
        exact (h.windows req.clt).checkduplicate (h.requests req hreq).1
          (fun r hr => h.classified_ordered hreq hr) hmarked hout
      · rw [if_neg (fun hand => hclt hand.1), Function.update_of_ne (Ne.symm hclt)]
        exact h.windows clt

theorem Heard.Traced.call (h : s.Traced) {clt proc : Nat} {c : Rpcc} {req : Request}
    (hxid : (s.net.client clt).xid ≠ 0)
    (hcall : (s.net.client clt).call1 clt proc = some (c, req)) :
    Heard.Traced
      ⟨{ s.net.setClient clt c with requests := req :: s.net.requests }, s.received⟩ := by
  obtain ⟨hkeeping, honward, rfl, hfresh, hrep, hlt⟩ := (h.clients clt).call1 hxid hcall
  have hset := h.setClient hkeeping honward
  have hclient : (s.net.setClient req.clt c).client req.clt = c := by simp [Net.setClient]
  refine { hset with requests := ?_, ordered := ?_, received := ?_, windows := hset.windows }
  · intro r hr
    rcases List.mem_cons.mp hr with rfl | hr
    · dsimp only
      rw [hclient, hrep]
      have hfront := (h.clients r.clt).counts.front_lt hxid
      have hlimit : (s.net.client r.clt).limit = (s.net.client r.clt).xid := if_neg hxid
      exact ⟨by omega, hlt, honward.front⟩
    · exact hset.requests r hr
  · intro r hr r' hr' hclt hxids
    rcases List.mem_cons.mp hr with rfl | hold
    · -- no earlier request has a larger xid
      rcases List.mem_cons.mp hr' with rfl | hold'
      · exact absurd hxids (Nat.lt_irrefl _)
      · have hbelow := (h.requests r' hold').2.1
        rw [← hclt] at hbelow
        omega
    · rcases List.mem_cons.mp hr' with rfl | hold'
      · rw [hrep, ← hclt]
        exact (h.requests r hold).2.2
      · exact h.ordered r hold r' hold' hclt hxids
  · intro r hr
    exact List.mem_cons_of_mem _ (h.received r hr)

end Traced

theorem Rpcs.execute_frame {s t : Rpcs} {req : Request} {buf : Nat} {ret : Int}
    {body : List UInt8} (h : s.execute req buf ret body = some t) :
    t.checks = s.checks ∧ t.replyWindow = s.replyWindow := by
  unfold Rpcs.execute at h
  split_ifs at h
  cases h
  exact ⟨rfl, rfl⟩

theorem Rpcs.addReply_frame {s t : Rpcs} {req : Request} {buf : Nat}
    (h : s.addReply req buf = some t) :
    t.checks = s.checks ∧ ∀ clt, (t.replyWindow clt).map ReplyT.xid =
      (s.replyWindow clt).map ReplyT.xid := by
  unfold Rpcs.addReply at h
  split_ifs at h
  · cases h
    exact ⟨rfl, fun _ => rfl⟩
  · obtain ⟨w, hadd, rfl⟩ := Option.map_eq_some_iff.mp h
    refine ⟨rfl, fun clt => ?_⟩
    by_cases hsame : clt = req.clt
    · subst hsame
      simpa using addReply_xids hadd
    · simp [hsame]

theorem Heard.Traced.step {s t : Heard} {action : Net.Action} (h : s.Traced)
    (hguard : s.anchored action = true) (hstep : s.step action = some t) : t.Traced := by
  obtain ⟨next, hnext, rfl⟩ := Option.map_eq_some_iff.mp hstep
  cases action with
  | call clt proc =>
      simp only [Net.step] at hnext
      split_ifs at hnext
      obtain ⟨⟨c, req⟩, hcall, rfl⟩ := Option.map_eq_some_iff.mp hnext
      exact h.call (by simpa [Heard.anchored] using hguard) hcall
  | finish clt xid =>
      obtain ⟨c, hfinish, rfl⟩ := Option.map_eq_some_iff.mp hnext
      obtain ⟨hkeeping, honward⟩ := (h.clients clt).finish hfinish
      exact h.setClient hkeeping honward
  | receive clt pdu =>
      simp only [Net.step] at hnext
      split_ifs at hnext
      cases hnext
      obtain ⟨r, hr, hsame⟩ := List.any_eq_true.mp hguard
      simp only [Bool.and_eq_true, beq_iff_eq] at hsame
      obtain ⟨rfl, hxid⟩ := hsame
      have hlimit := (h.requests r (h.received r hr)).2.1
      rw [hxid] at hlimit
      obtain ⟨hkeeping, honward⟩ :=
        (h.clients r.clt).updateXidRep hlimit (.inr ⟨r, hr, rfl, hxid⟩)
      exact h.setClient hkeeping honward
  | bound clt r =>
      cases hnext
      exact h.setClient { h.clients clt with counts := { (h.clients clt).counts with } }
        ⟨Nat.le_refl _, Nat.le_refl _⟩
  | cancel clt =>
      cases hnext
      exact h.setClient { h.clients clt with counts := { (h.clients clt).counts with } }
        ⟨Nat.le_refl _, Nat.le_refl _⟩
  | dispatch req =>
      simp only [Net.step] at hnext
      split_ifs at hnext with hreq
      obtain ⟨⟨server, pdu⟩, hdispatch, rfl⟩ := Option.map_eq_some_iff.mp hnext
      exact h.dispatch hreq hguard hdispatch
  | execute req buf ret body =>
      obtain ⟨server, hexecute, rfl⟩ := Option.map_eq_some_iff.mp hnext
      obtain ⟨hchecks, hwindow⟩ := Rpcs.execute_frame hexecute
      exact h.server hchecks fun clt => by rw [hwindow]
  | addReply req buf =>
      obtain ⟨server, hadd, rfl⟩ := Option.map_eq_some_iff.mp hnext
      obtain ⟨hchecks, hxids⟩ := Rpcs.addReply_frame hadd
      exact h.server hchecks hxids
  | send req buf resend junk =>
      obtain ⟨⟨server, pdu⟩, hsend, rfl⟩ := Option.map_eq_some_iff.mp hnext
      obtain ⟨hchecks, hwindow, -⟩ := Rpcs.send_frame hsend
      exact h.server hchecks fun clt => by rw [hwindow]

/-- The answer of `checkduplicate_and_update`. -/
def Heard.answer (s : Heard) (req : Request) : RpcState :=
  (checkduplicateAndUpdate (s.net.server.replyWindow req.clt) req.xid req.xidRep).1

/-- A request is FORGOTTEN only if it is acknowledged.  It is NEW if the server has not seen it
    and the client still waits for it. -/
structure Heard.Remembers (s : Heard) (req : Request) : Prop where
  forgotten : s.answer req = .forgotten →
    ∃ r ∈ req :: s.received, r.clt = req.clt ∧ req.xid ≤ r.xidRep
  new : ¬ Among s.received req.clt req.xid → req.xid ∈ (s.net.client req.clt).calls →
    s.answer req = .new

theorem Heard.Traced.remembers {s : Heard} (h : s.Traced) {req : Request}
    (hreq : req ∈ s.net.requests) (hmarked : Marked (s.classified req.clt) req) :
    s.Remembers req := by
  have hattached := h.windows req.clt
  obtain ⟨hrep, -, -⟩ := h.requests req hreq
  have hout : Outcome _ req.xid (s.answer req) _ :=
    outcome_classify (hattached.sorted.trim req.xidRep)
  obtain ⟨-, hforgotten⟩ := hattached.anchor_checkduplicate hrep
    (fun r hr => h.classified_ordered hreq hr) hmarked hout
  constructor
  · intro hanswer
    obtain ⟨r, hr, hle⟩ := hforgotten hanswer
    obtain ⟨hreceived, hclt, -⟩ := h.mem_classified hr
    exact ⟨r, List.mem_cons_of_mem _ hreceived, hclt, hle⟩
  · intro hunseen hcalls
    have hentry : ∀ e ∈ s.net.server.replyWindow req.clt, e.xid ≠ req.xid := by
      intro e he hxid
      obtain ⟨r, hr, hr'⟩ := hattached.heard e he
      obtain ⟨hreceived, hclt, -⟩ := h.mem_classified hr
      exact hunseen ⟨r, hreceived, hclt, hr'.trans hxid⟩
    have htrim : ∀ e ∈ trim req.xidRep (s.net.server.replyWindow req.clt), e.xid ≠ req.xid :=
      fun e he => hentry e (hattached.sorted.mem_trim.mp he).1
    rcases hout.new_or_forgotten htrim with hnew | hanswer
    · exact hnew
    · -- the client would have acknowledged a call that it waits for
      obtain ⟨r, hr, hle⟩ := hforgotten hanswer
      obtain ⟨-, hclt, hmem⟩ := h.mem_classified hr
      have hfront := (h.requests r hmem).2.2
      rw [hclt] at hfront
      rcases (h.clients req.clt).covered req.xid (.inl (hle.trans hfront)) with hzero | hnot | hheard
      · omega
      · exact absurd hcalls hnot
      · exact absurd hheard hunseen

/-- **FORGOTTEN only for acknowledged requests**, in every run in which the server has heard of
    the `xid_rep` of each request or of the xid after it. -/
theorem forgotten_only_if_acknowledged {s : Heard} {nonce : Nat} {procs : List Nat}
    (h : (heard nonce procs).Reach (fun state action => state.anchored action = true) s)
    {req : Request} (hreq : req ∈ s.net.requests) (hchecks : s.net.server.checks req = true)
    (hguard : s.anchored (.dispatch req) = true) : s.Remembers req := by
  have htraced : s.Traced := by
    apply h.invariant (P := Heard.Traced)
    · rintro start rfl
      exact ⟨fun _ => Rpcc.keeping_new, by simp, by simp, by simp, fun _ => attached_nil⟩
    · intro state next action hstate hok hstep
      exact hstate.step hok hstep
  apply htraced.remembers hreq
  simpa [Heard.anchored, hchecks] using hguard

/-- The third request is sent along with the second one and comes first. -/
def overtaking : List Net.Action :=
  served bindRequest 100 [] ++ [.bound 5 9, .call 5 2, .call 5 2, .dispatch ⟨5, 3, 2, 9, 1⟩]

theorem overtaken_request_is_new :
    ∃ s, (heard 9 [bindProc, 2]).Reach (fun state action => state.anchored action = true) s ∧
      secondRequest ∈ s.net.requests ∧ s.Remembers secondRequest ∧
      s.answer secondRequest = .new := by
  obtain ⟨s, hreach, hview⟩ : ∃ s, (heard 9 [bindProc, 2]).Reach
      (fun state action => state.anchored action = true) s ∧
      (s.net.requests, s.anchored (.dispatch secondRequest), s.net.server.checks secondRequest,
        s.answer secondRequest) =
        ([⟨5, 3, 2, 9, 1⟩, secondRequest, bindRequest], true, true, .new) :=
    System.Reach.of_exec Heard.anchored overtaking rfl (fun _ _ h => h) (by decide +kernel)
  obtain ⟨hrequests, hview⟩ := Prod.mk.inj hview
  obtain ⟨hguard, hview⟩ := Prod.mk.inj hview
  obtain ⟨hchecks, hanswer⟩ := Prod.mk.inj hview
  have hreq : secondRequest ∈ s.net.requests := by simp [hrequests]
  exact ⟨s, hreach, hreq, forgotten_only_if_acknowledged hreach hreq hchecks hguard, hanswer⟩

/-- The second request is lost and its call times out.  The third and the fourth one are sent
    together, and the fourth one comes first. -/
def overtakingAfterTimeout : List Net.Action :=
  served bindRequest 100 [] ++ [.bound 5 9, .call 5 2, .finish 5 2, .call 5 2, .call 5 2] ++
    [.dispatch ⟨5, 4, 2, 9, 2⟩]

theorem unseen_request_is_forgotten :
    ¬ ∀ s, (heard 9 [bindProc, 2]).Reach anyStep s → ∀ req ∈ s.net.requests,
      s.net.server.checks req = true → s.Remembers req := by
  intro hclaim
  obtain ⟨s, hreach, hview⟩ : ∃ s, (heard 9 [bindProc, 2]).Reach anyStep s ∧
      (s.net.requests, s.received, s.net.server.checks thirdRequest, s.answer thirdRequest) =
        ([⟨5, 4, 2, 9, 2⟩, thirdRequest, secondRequest, bindRequest],
          [⟨5, 4, 2, 9, 2⟩, bindRequest], true, .forgotten) :=
    System.Reach.of_exec (fun _ _ => true) overtakingAfterTimeout rfl (fun _ _ _ => trivial)
      (by decide +kernel)
  obtain ⟨hrequests, hview⟩ := Prod.mk.inj hview
  obtain ⟨hreceived, hview⟩ := Prod.mk.inj hview
  obtain ⟨hchecks, hanswer⟩ := Prod.mk.inj hview
  have hremembers := hclaim s hreach thirdRequest (by simp [hrequests]) hchecks
  obtain ⟨r, hr, -, hle⟩ := hremembers.forgotten hanswer
  rw [hreceived] at hr
  -- the server has not received an `xid_rep` above 2
  have hlow : ∀ r ∈ [thirdRequest, ⟨5, 4, 2, 9, 2⟩, bindRequest], r.xidRep < 3 := by decide
  exact absurd hle (Nat.not_le.mpr (hlow r hr))

end DistributedLab.Rpc
