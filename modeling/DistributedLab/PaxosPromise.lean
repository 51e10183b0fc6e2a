import DistributedLab.PaxosReplay
import Mathlib.Data.List.Induction

/-!
# Promises across crashes and re-joins

An acceptor that has granted a prepare request must not fall back below its number
while the instance is open.  Besides the handlers, two operations of a re-joining
node act on this: the constructor reads the log back after a crash, and
`acceptor::restore` replaces the log by that of another member and reads it into the
running acceptor.

The log keeps one promise for all instances, the last `propseen` record since the
last `done` record, and `restore` takes over whatever promise the other member
happened to log.  The conditions under which promises last are therefore conditions
on those two records.
-/

namespace DistributedLab.Paxos

open TextStream Transition

/-! ### The records that matter -/

/-- The instance of the last `done` record. -/
def lastDone (records : List Record) : Option Nat :=
  records.foldl (fun last record =>
    match record with
    | .done inst _ => some inst
    | _ => last) none

/-- The last `propseen` record since the last `done` record. -/
def lastSeen (records : List Record) : Option PropT :=
  records.foldl (fun last record =>
    match record with
    | .done _ _ => none
    | .propseen nH => some nH
    | .accepted _ _ => last) none

theorem lastDone_append (records : List Record) (record : Record) :
    lastDone (records ++ [record]) =
      match record with
      | .done inst _ => some inst
      | _ => lastDone records := by
  rw [lastDone, List.foldl_append]
  rfl

theorem lastSeen_append (records : List Record) (record : Record) :
    lastSeen (records ++ [record]) =
      match record with
      | .done _ _ => none
      | .propseen nH => some nH
      | .accepted _ _ => lastSeen records := by
  rw [lastSeen, List.foldl_append]
  rfl

/-- Replaying a log leaves `instance_h` at its last decision, if it has one. -/
theorem instanceH_foldl_replay (records : List Record) (a : Acceptor) :
    (records.foldl Acceptor.replay a).instanceH = (lastDone records).getD a.instanceH := by
  induction records using List.reverseRecOn with
  | nil => rfl
  | append_singleton records record ih =>
      rw [List.foldl_append, lastDone_append]
      cases record with
      | done inst v => rfl
      | propseen nH => exact ih
      | accepted n v => exact ih

/-- Replaying a log leaves `n_h` at the last proposal seen since its last decision. -/
theorem nH_foldl_replay {records : List Record} {p : PropT} (h : lastSeen records = some p)
    (a : Acceptor) : (records.foldl Acceptor.replay a).nH = p := by
  induction records using List.reverseRecOn with
  | nil => cases h
  | append_singleton records record ih =>
      rw [lastSeen_append] at h
      rw [List.foldl_append]
      cases record with
      | done inst v => cases h
      | propseen nH => exact Option.some.inj h
      | accepted n v => exact ih h

/-! ### Runs of a re-joining acceptor -/

/-- A granted prepare request: its number and its instance. -/
structure Promise where
  n : PropT
  inst : Nat
deriving DecidableEq, Repr

/-- The acceptor and the promises it has given so far. -/
structure Member where
  acceptor : Acceptor
  promises : List Promise

inductive Member.Action where
  /-- A handler or `commit` runs. -/
  | call (op : Op)
  /-- The process dies and the constructor reads its log. -/
  | crash (first : Bool) (value : String) (junk : Nat)
  /-- `rsm::join` restores the log of another member. -/
  | restore (log : List Record) (junk : Nat)
deriving DecidableEq, Repr

/-- The promise that a handled request makes. -/
def promiseOf : Request → Response → List Promise
  | .prepare arg, .prepare res => if res.accept then [⟨arg.n, arg.inst⟩] else []
  | _, _ => []

def Member.step (s : Member) : Member.Action → Option Member
  | .call (.request req) => (s.acceptor.handle req).map fun out =>
      { acceptor := out.1, promises := promiseOf req out.2 ++ s.promises }
  | .call (.commit inst value) => some { s with acceptor := s.acceptor.commit inst value }
  | .crash first value junk =>
      (Acceptor.new first s.acceptor.me value s.acceptor.file junk).map fun next =>
        { s with acceptor := next }
  | .restore log junk =>
      (s.acceptor.restore (logDump (logText log)) junk).map fun next => { s with acceptor := next }

/-- An acceptor that has just been constructed over a well-formed log. -/
def Member.initial (s : Member) : Prop :=
  s.promises = [] ∧ ∃ (first : Bool) (me value : String) (records : List Record) (junk : Nat),
    (∀ record ∈ records, record.WF) ∧ '\n' ∉ value.toList ∧
      Acceptor.new first me value (logText records) junk = some s.acceptor

def rejoining : System Member Member.Action where
  init := Member.initial
  step := Member.step

/-- What the operations are called with. -/
def Member.Action.WF : Member.Action → Prop
  | .call op => op.WF
  | .crash _ value _ => '\n' ∉ value.toList
  | .restore log _ => ∀ record ∈ log, record.WF

/-- The instance that an operation decides. -/
def Op.decided : Op → Option Nat
  | .request (.decide arg) => some arg.inst
  | .commit inst _ => some inst
  | _ => none

/-- The log decides the instance of the promise, or it holds a promise at least as high. -/
def Covers (records : List Record) (promise : Promise) : Prop :=
  (∃ inst ∈ lastDone records, promise.inst ≤ inst) ∨ ∃ p ∈ lastSeen records, promise.n ≤ p

/-- The steps that keep promises: no decision skips an instance that a promise is for, also
    not that of the first view, and a restored log covers every promise.  A log without
    decisions is restored only over nothing decided. -/
def Member.KeepsPromises (s : Member) : Member.Action → Prop
  | .call op => ∀ inst ∈ op.decided, s.acceptor.instanceH < inst →
      ∀ promise ∈ s.promises, promise.inst ≤ inst
  | .crash first _ _ => first = true → s.acceptor.instanceH = 0 →
      ∀ promise ∈ s.promises, promise.inst ≤ 1
  | .restore log _ => (∀ promise ∈ s.promises, Covers log promise) ∧
      (s.acceptor.instanceH ≠ 0 → lastDone log ≠ none)

instance (records : List Record) (promise : Promise) : Decidable (Covers records promise) :=
  inferInstanceAs (Decidable (_ ∨ _))

instance (s : Member) : DecidablePred s.KeepsPromises
  | .call _ => inferInstanceAs (Decidable (∀ inst ∈ _, _))
  | .crash _ _ _ => inferInstanceAs (Decidable (_ → _))
  | .restore _ _ => inferInstanceAs (Decidable (_ ∧ _))

instance : DecidablePred Member.Action.WF
  | .call op => inferInstanceAs (Decidable op.WF)
  | .crash _ value _ => inferInstanceAs (Decidable ('\n' ∉ value.toList))
  | .restore log _ => inferInstanceAs (Decidable (∀ record ∈ log, record.WF))

/-! ### The invariant -/

/-- The file is a well-formed log that covers every promise, and the acceptor stands where
    the log's last records put it. -/
structure Member.Held (s : Member) (records : List Record) : Prop where
  wf : ∀ record ∈ records, record.WF
  file : s.acceptor.file = logText records
  decided : s.acceptor.instanceH = (lastDone records).getD 0
  seen : ∀ p, lastSeen records = some p → s.acceptor.nH = p
  covered : ∀ promise ∈ s.promises, Covers records promise

theorem Member.Held.kept {s : Member} {records : List Record} (h : s.Held records)
    {promise : Promise} (hpromise : promise ∈ s.promises)
    (hopen : s.acceptor.instanceH < promise.inst) : promise.n ≤ s.acceptor.nH := by
  rcases h.covered promise hpromise with ⟨inst, hdone, hle⟩ | ⟨p, hseen, hle⟩
  · rw [h.decided, Option.mem_def.mp hdone, Option.getD_some] at hopen
    omega
  · rw [h.seen p hseen]
    exact hle

/-- One more record at the end of the log. -/
theorem Member.Held.append {s next : Member} {records : List Record} (h : s.Held records)
    (record : Record) (hwf : record.WF)
    (hfile : next.acceptor.file = s.acceptor.file ++ record.text)
    (hdecided : next.acceptor.instanceH = (lastDone (records ++ [record])).getD 0)
    (hseen : ∀ p, lastSeen (records ++ [record]) = some p → next.acceptor.nH = p)
    (hcovered : ∀ promise ∈ next.promises, Covers (records ++ [record]) promise) :
    next.Held (records ++ [record]) where
  wf := Record.wf_append h.wf hwf
  file := by rw [hfile, h.file, logText_append, logText_singleton]
  decided := hdecided
  seen := hseen
  covered := hcovered

/-- Deciding an instance that no promise goes beyond. -/
theorem Member.Held.done {s next : Member} {records : List Record} (h : s.Held records)
    {inst : Nat} {value : String} (hwf : (Record.done inst value).WF)
    (hclosed : ∀ promise ∈ s.promises, promise.inst ≤ inst)
    (hfile : next.acceptor.file = s.acceptor.file ++ (Record.done inst value).text)
    (hinst : next.acceptor.instanceH = inst) (hpromises : next.promises = s.promises) :
    next.Held (records ++ [.done inst value]) := by
  refine h.append _ hwf hfile ?_ ?_ ?_
  · rw [lastDone_append, hinst]
    rfl
  · intro p hp
    rw [lastSeen_append] at hp
    cases hp
  · intro promise hpromise
    rw [hpromises] at hpromise
    exact .inl ⟨inst, lastDone_append _ _, hclosed promise hpromise⟩

theorem Member.Held.committed {s : Member} {records : List Record} (h : s.Held records)
    {inst : Nat} {value : String} (hbound : inst < unsignedBound) (hline : '\n' ∉ value.toList)
    (hlt : s.acceptor.instanceH < inst)
    (hclosed : ∀ promise ∈ s.promises, promise.inst ≤ inst) :
    ({ s with acceptor := s.acceptor.committed inst value } : Member).Held
      (records ++ [.done inst value]) :=
  h.done ⟨by omega, hbound, hline⟩ hclosed rfl rfl rfl

/-- Each handler keeps the promises given before it and records the one it gives. -/
theorem Member.Held.request {s : Member} {records : List Record} (h : s.Held records)
    {req : Request} {next : Acceptor} {res : Response} (hout : s.acceptor.Outcome req next res)
    (hwf : (Op.request req).WF) (hkeeps : s.KeepsPromises (.call (.request req))) :
    ∃ records', (Member.mk next (promiseOf req res ++ s.promises)).Held records' := by
  cases hout with
  | oldinstance hinst => exact ⟨records, h⟩
  | promised hinst hn =>
      rename_i arg
      refine ⟨_, h.append (.propseen arg.n) hwf.2 rfl ?_ ?_ ?_⟩
      · rw [lastDone_append]
        exact h.decided
      · intro p hp
        rw [lastSeen_append] at hp
        exact Option.some.inj hp
      · intro promise hpromise
        rcases List.mem_cons.mp hpromise with rfl | hpromise
        · exact .inr ⟨arg.n, lastSeen_append _ _, le_refl arg.n⟩
        · rcases h.covered promise hpromise with ⟨inst, hdone, hle⟩ | ⟨p, hseen, hle⟩
          · exact .inl ⟨inst, by rw [lastDone_append]; exact hdone, hle⟩
          · -- the new number is above the promise that the log held so far
            have hp : p ≤ arg.n := (h.seen p hseen) ▸ le_of_lt hn
            exact .inr ⟨arg.n, lastSeen_append _ _, hle.trans hp⟩
  | rejected hinst hn => exact ⟨records, h⟩
  | voted hn =>
      rename_i arg
      refine ⟨_, h.append (.accepted arg.n arg.v) hwf.2 rfl ?_ ?_ ?_⟩
      · rw [lastDone_append]
        exact h.decided
      · intro p hp
        rw [lastSeen_append] at hp
        exact h.seen p hp
      · intro promise hpromise
        rw [Covers, lastDone_append, lastSeen_append]
        exact h.covered promise hpromise
  | refused hn => exact ⟨records, h⟩
  | committed hinst hv =>
      rename_i arg
      have hlt : s.acceptor.instanceH < arg.inst := by omega
      exact ⟨_, h.committed hwf.1 hwf.2 hlt (hkeeps _ rfl hlt)⟩
  | ignored => exact ⟨records, h⟩

/-- The constructor reads back a log that covers every promise, and logs the first view if
    nothing is decided. -/
theorem Member.held_new {records : List Record} (hwf : ∀ record ∈ records, record.WF)
    {promises : List Promise} (hcovered : ∀ promise ∈ promises, Covers records promise)
    {first : Bool} {me value : String} (hvalue : '\n' ∉ value.toList)
    (hfirst : first = true → (lastDone records).getD 0 = 0 →
      ∀ promise ∈ promises, promise.inst ≤ 1) {junk : Nat} {next : Acceptor}
    (hnew : Acceptor.new first me value (logText records) junk = some next) :
    ∃ records', (Member.mk next promises).Held records' := by
  rw [Acceptor.new_logText hwf, Option.some.injEq] at hnew
  have hread : (Member.mk { replayed me records with file := logText records } promises).Held
      records :=
    { wf := hwf
      file := rfl
      decided := instanceH_foldl_replay records _
      seen := fun p hp => nH_foldl_replay hp _
      covered := hcovered }
  subst hnew
  by_cases hlog : (replayed me records).instanceH = 0 ∧ first = true
  · have hzero : (lastDone records).getD 0 = 0 :=
      (instanceH_foldl_replay records (Acceptor.blank me [])).symm.trans hlog.1
    rw [Acceptor.logFirst, if_pos hlog]
    exact ⟨_, hread.done ⟨le_refl 1, by decide, hvalue⟩ (hfirst hlog.2 hzero) rfl rfl rfl⟩
  · rw [Acceptor.logFirst, if_neg hlog]
    exact ⟨records, hread⟩

/-- Restoring another member's log that covers every promise. -/
theorem Member.held_restore {s : Member} {log : List Record} (hwf : ∀ record ∈ log, record.WF)
    {junk : Nat} (hkeeps : s.KeepsPromises (.restore log junk)) {next : Acceptor}
    (hrestore : s.acceptor.restore (logDump (logText log)) junk = some next) :
    (Member.mk next s.promises).Held log := by
  rw [logDump_logText hwf, Acceptor.restore, Acceptor.logread_logText hwf rfl,
    Option.some.injEq] at hrestore
  subst hrestore
  exact {
    wf := hwf
    file := by rw [Acceptor.foldl_replay_file]
    decided := by
      rw [instanceH_foldl_replay]
      rcases hdone : lastDone log with _ | inst
      · exact Classical.not_not.mp fun hne => hkeeps.2 hne hdone
      · rfl
    seen := fun p hp => nH_foldl_replay hp _
    covered := hkeeps.1 }

theorem Member.Held.step {s next : Member} {records : List Record} {action : Member.Action}
    (h : s.Held records) (hwf : action.WF) (hkeeps : s.KeepsPromises action)
    (hstep : s.step action = some next) : ∃ records', next.Held records' := by
  cases action with
  | call op =>
      cases op with
      | request req =>
          obtain ⟨⟨after, res⟩, hhandle, rfl⟩ := Option.map_eq_some_iff.mp hstep
          exact h.request (Acceptor.handle_outcome hhandle) hwf hkeeps
      | commit inst value =>
          cases hstep
          rcases Nat.lt_or_ge s.acceptor.instanceH inst with hlt | hge
          · rw [Acceptor.commit, Acceptor.commitWo_of_lt hlt]
            exact ⟨_, h.committed hwf.1 hwf.2 hlt (hkeeps inst rfl hlt)⟩
          · rw [Acceptor.commit, Acceptor.commitWo_of_le hge]
            exact ⟨records, h⟩
  | crash first value junk =>
      obtain ⟨after, hnew, rfl⟩ := Option.map_eq_some_iff.mp hstep
      rw [h.file] at hnew
      exact held_new h.wf h.covered hwf (fun hfirst hzero => hkeeps hfirst (h.decided.trans hzero))
        hnew
  | restore log junk =>
      obtain ⟨after, hrestore, rfl⟩ := Option.map_eq_some_iff.mp hstep
      exact ⟨log, held_restore hwf hkeeps hrestore⟩

theorem Member.held_initial {s : Member} (h : s.initial) : ∃ records, s.Held records := by
  obtain ⟨hnone, first, me, value, records, junk, hwf, hvalue, hnew⟩ := h
  have hvacuous : ∀ promise ∈ s.promises, False := by simp [hnone]
  exact held_new hwf (fun promise hmem => (hvacuous promise hmem).elim) hvalue
    (fun _ _ promise hmem => (hvacuous promise hmem).elim) hnew

/-- **Promises last.**  In every run whose steps keep promises, an acceptor that has granted
    a prepare request numbered `n` for an instance it has not decided stays at `n` or
    above. -/
theorem promises_kept {s : Member}
    (h : rejoining.Reach (fun s action => action.WF ∧ s.KeepsPromises action) s) :
    ∀ promise ∈ s.promises, s.acceptor.instanceH < promise.inst →
      promise.n.gt s.acceptor.nH = false := by
  have hheld : ∃ records, s.Held records := by
    refine h.invariant (P := fun s => ∃ records, s.Held records) ?_ ?_
    · exact fun start hinit => Member.held_initial hinit
    · rintro state next action ⟨records, hstate⟩ ⟨hwf, hkeeps⟩ hstep
      exact hstate.step hwf hkeeps hstep
  obtain ⟨records, hheld⟩ := hheld
  intro promise hpromise hopen
  rw [Bool.eq_false_iff, ne_eq, PropT.gt_eq_true, not_lt]
  exact hheld.kept hpromise hopen

/-! ### Concrete runs -/

/-- Node `b`, a member of the view that instance 2 decided. -/
def memberB : Member where
  acceptor := ({ replayed "b" [.done 1 "a ", .done 2 "a b c "] with
    file := logText [.done 1 "a ", .done 2 "a b c "] }).logFirst false ""
  promises := []

theorem memberB_initial : memberB.initial :=
  ⟨rfl, false, "b", "", [.done 1 "a ", .done 2 "a b c "], 0, by decide, by decide,
    Acceptor.new_logText (by decide) false "b" "" 0⟩

/-- Node `b` grants a prepare request of node `c` for instance 3, crashes, comes back with
    its own log and restores that of `c`, which has granted the same request. -/
def rejoinAfterProposer : List Member.Action :=
  [.call (.request (.prepare ⟨3, ⟨1, "c"⟩⟩)), .crash false "" 0,
    .restore [.done 1 "a ", .done 2 "a b c ", .propseen ⟨1, "c"⟩] 0]

/-- The same with the log of `a`, which the request has not reached. -/
def rejoinBeforeProposer : List Member.Action :=
  [.call (.request (.prepare ⟨3, ⟨1, "c"⟩⟩)), .crash false "" 0,
    .restore [.done 1 "a ", .done 2 "a b c "] 0]

/-- What the runs show: the decided instance, the proposal number and the promises. -/
def Member.view (s : Member) : Nat × PropT × List Promise :=
  (s.acceptor.instanceH, s.acceptor.nH, s.promises)

theorem promises_kept_rejoinAfterProposer :
    ∃ s, rejoining.Reach (fun s action => action.WF ∧ s.KeepsPromises action) s ∧
      s.promises = [⟨⟨1, "c"⟩, 3⟩] ∧ s.acceptor.instanceH = 2 ∧
      (⟨1, "c"⟩ : PropT).gt s.acceptor.nH = false := by
  obtain ⟨s, hreach, hview⟩ : ∃ s,
      rejoining.Reach (fun s action => action.WF ∧ s.KeepsPromises action) s ∧
        s.view = (2, ⟨1, "c"⟩, [⟨⟨1, "c"⟩, 3⟩]) :=
    System.Reach.of_exec (fun s action => decide (action.WF ∧ s.KeepsPromises action))
      rejoinAfterProposer memberB_initial (fun _ _ h => of_decide_eq_true h) (by decide +kernel)
  simp only [Member.view, Prod.mk.injEq] at hview
  obtain ⟨hinst, -, hpromises⟩ := hview
  refine ⟨s, hreach, hpromises, hinst, ?_⟩
  exact promises_kept hreach ⟨⟨1, "c"⟩, 3⟩ (by simp [hpromises]) (by simp [hinst])

theorem restore_forgets_promise :
    ¬ ∀ s, rejoining.Reach (fun _ action => action.WF) s →
      ∀ promise ∈ s.promises, s.acceptor.instanceH < promise.inst →
        promise.n.gt s.acceptor.nH = false := by
  intro hall
  obtain ⟨s, hreach, hview⟩ : ∃ s, rejoining.Reach (fun _ action => action.WF) s ∧
      s.view = (2, ⟨0, "c"⟩, [⟨⟨1, "c"⟩, 3⟩]) :=
    System.Reach.of_exec (fun _ action => decide action.WF) rejoinBeforeProposer memberB_initial
      (fun _ _ h => of_decide_eq_true h) (by decide +kernel)
  simp only [Member.view, Prod.mk.injEq] at hview
  obtain ⟨hinst, hnH, hpromises⟩ := hview
  have hkept := hall s hreach ⟨⟨1, "c"⟩, 3⟩ (by simp [hpromises]) (by simp [hinst])
  rw [hnH] at hkept
  exact absurd hkept (by decide)

end DistributedLab.Paxos
