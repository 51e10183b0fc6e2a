import DistributedLab.PaxosPromise
import DistributedLab.PaxosValidity

/-!
# Complete logs

The log of an acceptor that decides instance after instance: one `done` record for
each decided instance, in ascending order, with the value that `values` holds.  Such a
log survives being dumped, restored on another node and read back by a constructor,
provided that what was written can be read: names without blanks, numbers of type
`unsigned`, values on one line.

The values are followed through requests, answers and runs at the same time, under an
arbitrary predicate `Q` that the proposed values satisfy.  An acceptor answers
`oldinstance` with the empty string for an instance it has no value for, so the
predicate is kept only because a complete history has no gap.
-/

namespace DistributedLab.Paxos

open TextStream

/-! ### The decisions of a log -/

/-- The `done` records, in the order of the log. -/
def decisions (records : List Record) : List (Nat × String) :=
  records.filterMap fun record =>
    match record with
    | .done inst v => some (inst, v)
    | _ => none

@[simp] theorem decisions_append (records records' : List Record) :
    decisions (records ++ records') = decisions records ++ decisions records' :=
  List.filterMap_append

theorem decisions_eq_nil {records : List Record}
    (h : ∀ record ∈ records, record.isDone = false) : decisions records = [] := by
  refine List.filterMap_eq_nil_iff.mpr fun record hrecord => ?_
  have hundecided := h record hrecord
  cases record with
  | done inst v => cases hundecided
  | propseen nH => rfl
  | accepted n v => rfl

theorem mem_of_mem_decisions {records : List Record} {i : Nat} {v : String}
    (h : (i, v) ∈ decisions records) : .done i v ∈ records := by
  obtain ⟨record, hrecord, heq⟩ := List.mem_filterMap.mp h
  cases record with
  | done inst w =>
      obtain ⟨rfl, rfl⟩ := Prod.mk.inj (Option.some.inj heq)
      exact hrecord
  | propseen nH => cases heq
  | accepted n w => cases heq

/-- An instance that the log does not decide keeps its value. -/
theorem values_foldl_replay_of_not_mem {records : List Record} {i : Nat}
    (h : i ∉ (decisions records).map Prod.fst) (a : Acceptor) :
    (records.foldl Acceptor.replay a).values i = a.values i := by
  induction records using List.reverseRecOn with
  | nil => rfl
  | append_singleton records record ih =>
      rw [decisions_append, List.map_append, List.mem_append, not_or] at h
      rw [List.foldl_append]
      cases record with
      | done inst v =>
          have hne : i ≠ inst := fun heq => h.2 (by simp [decisions, heq])
          exact (Function.update_of_ne hne _ _).trans (ih h.1)
      | propseen nH => exact ih h.1
      | accepted n v => exact ih h.1

/-- An instance that the log decides once has the value of its record. -/
theorem values_foldl_replay_of_mem {records : List Record} {i : Nat} {v : String}
    (hnodup : ((decisions records).map Prod.fst).Nodup) (h : (i, v) ∈ decisions records)
    (a : Acceptor) : (records.foldl Acceptor.replay a).values i = some v := by
  induction records using List.reverseRecOn with
  | nil => cases h
  | append_singleton records record ih =>
      rw [decisions_append, List.map_append] at hnodup
      rw [decisions_append, List.mem_append] at h
      rw [List.foldl_append]
      have hbefore := (List.nodup_append.mp hnodup).1
      cases record with
      | done inst w =>
          rcases h with h | h
          · have hne : i ≠ inst := by
              refine (List.nodup_append.mp hnodup).2.2 i (List.mem_map_of_mem h) inst ?_
              simp [decisions]
            exact (Function.update_of_ne hne _ _).trans (ih hbefore h)
          · obtain ⟨rfl, rfl⟩ := Prod.mk.inj (List.mem_singleton.mp h)
            exact Function.update_self ..
      | propseen nH => exact ih hbefore (h.resolve_right (by simp [decisions]))
      | accepted n w => exact ih hbefore (h.resolve_right (by simp [decisions]))

/-- A log that decides the instances from 1 to `last` ends in the last one. -/
theorem instanceH_foldl_replay_of_ascending {records : List Record} {last : Nat}
    (h : (decisions records).map Prod.fst = List.range' 1 last) (a : Acceptor) :
    (records.foldl Acceptor.replay a).instanceH = if last = 0 then a.instanceH else last := by
  induction records using List.reverseRecOn with
  | nil =>
      have hzero : last = 0 := by simpa [decisions] using h.symm
      rw [if_pos hzero]
      rfl
  | append_singleton records record ih =>
      rw [decisions_append, List.map_append] at h
      rw [List.foldl_append]
      cases record with
      | done inst v =>
          obtain ⟨before, rfl⟩ : ∃ before, last = before + 1 := by
            refine Nat.exists_eq_succ_of_ne_zero fun hzero => ?_
            rw [hzero] at h
            simp [decisions] at h
          rw [List.range'_1_concat] at h
          have hinst : inst = 1 + before :=
            List.singleton_inj.mp (List.append_inj_right' h rfl)
          rw [if_neg (Nat.succ_ne_zero before)]
          show inst = before + 1
          omega
      | propseen nH => exact ih (by simpa [decisions] using h)
      | accepted n v => exact ih (by simpa [decisions] using h)

/-! ### What is written can be read back -/

/-- The value in a record, if any, satisfies `Q`. -/
def Record.Holds (Q : String → Prop) : Record → Prop
  | .done _ v => Q v
  | .propseen _ => True
  | .accepted _ v => Q v

/-- Numbers are `unsigned`, names are words, and the value, if any, satisfies `Q`. -/
def Request.Legible (Q : String → Prop) : Request → Prop
  | .prepare arg => arg.n.n < unsignedBound ∧ IsWord arg.n.m
  | .accept arg => arg.n.n < unsignedBound ∧ IsWord arg.n.m ∧ Q arg.v
  | .decide arg => arg.inst < unsignedBound ∧ Q arg.v

/-- The text is a log with one decision for each instance from 1 to `last`, in order. -/
def Chronicle (Q : String → Prop) (value : Nat → String) (last : Nat) (text : List Char) : Prop :=
  ∃ records : List Record, text = logText records ∧
    (∀ record ∈ records, record.Readable ∧ record.Holds Q) ∧
    decisions records = (List.range' 1 last).map fun i => (i, value i)

/-- An acceptor without a gap: every instance up to `instance_h` has a value, and the file is
    the chronicle of these values. -/
structure Acceptor.Complete (Q : String → Prop) (a : Acceptor) : Prop where
  zero : a.values 0 = none
  blank : a.instanceH = 0 → ∀ i, a.values i = none
  defined : ∀ i, 1 ≤ i → i ≤ a.instanceH → a.values i ≠ none
  file : Chronicle Q a.value a.instanceH a.file
  accepted : a.vA = "" ∨ Q a.vA
  held : ∀ i v, a.values i = some v → Q v

section Complete

variable {Q : String → Prop} {a : Acceptor}

theorem Chronicle.congr {value value' : Nat → String} {last : Nat} {text : List Char}
    (h : Chronicle Q value last text) (heq : ∀ i, 1 ≤ i → i ≤ last → value' i = value i) :
    Chronicle Q value' last text := by
  obtain ⟨records, htext, hrecords, hdecisions⟩ := h
  refine ⟨records, htext, hrecords, hdecisions.trans (List.map_congr_left fun i hi => ?_)⟩
  rw [List.mem_range'_1] at hi
  rw [heq i hi.1 (by omega)]

/-- A proposal is logged. -/
theorem Chronicle.append {value : Nat → String} {last : Nat} {text : List Char}
    (h : Chronicle Q value last text) {record : Record} (hreadable : record.Readable)
    (hholds : record.Holds Q) (hundecided : record.isDone = false) :
    Chronicle Q value last (text ++ record.text) := by
  obtain ⟨records, rfl, hrecords, hdecisions⟩ := h
  refine ⟨records ++ [record], by simp, ?_, ?_⟩
  · exact List.forall_mem_append.mpr
      ⟨hrecords, List.forall_mem_singleton.mpr ⟨hreadable, hholds⟩⟩
  · have hnone : decisions [record] = [] := decisions_eq_nil (by simpa using hundecided)
    rw [decisions_append, hnone, List.append_nil, hdecisions]

/-- The next instance is logged. -/
theorem Chronicle.decided {value : Nat → String} {last : Nat} {text : List Char}
    (h : Chronicle Q value last text) (hbound : last + 1 < unsignedBound) {v : String} (hv : Q v)
    (hline : '\n' ∉ v.toList) :
    Chronicle Q (Function.update value (last + 1) v) (last + 1)
      (text ++ (Record.done (last + 1) v).text) := by
  obtain ⟨records, rfl, hrecords, hdecisions⟩ := h
  refine ⟨records ++ [.done (last + 1) v], by simp, ?_, ?_⟩
  · have hlast : (Record.done (last + 1) v).Readable := ⟨Nat.succ_pos last, hbound, hline⟩
    exact List.forall_mem_append.mpr ⟨hrecords, List.forall_mem_singleton.mpr ⟨hlast, hv⟩⟩
  · rw [decisions_append, hdecisions, List.range'_1_concat, List.map_append]
    congr 1
    · refine List.map_congr_left fun i hi => ?_
      rw [List.mem_range'_1] at hi
      rw [Function.update_of_ne (by omega)]
    · simp [decisions, Nat.add_comm 1 last]

theorem Acceptor.Complete.append (h : a.Complete Q) {next : Acceptor} (record : Record)
    (hreadable : record.Readable) (hholds : record.Holds Q) (hundecided : record.isDone = false)
    (hfile : next.file = a.file ++ record.text) (hinst : next.instanceH = a.instanceH)
    (hvalues : next.values = a.values) (haccepted : next.vA = "" ∨ Q next.vA) :
    next.Complete Q where
  zero := hvalues ▸ h.zero
  blank := fun hzero => hvalues ▸ h.blank (hinst ▸ hzero)
  defined := fun i hpos hle => hvalues ▸ h.defined i hpos (hinst ▸ hle)
  file := by
    have hvalue : next.value = a.value := by
      funext i
      rw [Acceptor.value, Acceptor.value, hvalues]
    rw [hfile, hinst, hvalue]
    exact h.file.append hreadable hholds hundecided
  accepted := haccepted
  held := hvalues ▸ h.held

theorem Acceptor.Complete.committed (h : a.Complete Q) {inst : Nat} {v : String}
    (hinst : inst = a.instanceH + 1) (hbound : inst < unsignedBound) (hv : Q v)
    (hline : '\n' ∉ v.toList) : (a.committed inst v).Complete Q := by
  subst hinst
  have hvalues : (a.committed (a.instanceH + 1) v).values =
      Function.update a.values (a.instanceH + 1) (some v) := rfl
  have hother : ∀ {i}, i ≤ a.instanceH →
      (a.committed (a.instanceH + 1) v).values i = a.values i := fun hi => by
    rw [hvalues, Function.update_of_ne (by omega)]
  refine ⟨(hother (Nat.zero_le _)).trans h.zero, nofun, fun i hpos hle => ?_, ?_, .inl rfl,
    fun i w hw => ?_⟩
  · by_cases hlast : i = a.instanceH + 1
    · rw [hlast, hvalues, Function.update_self]
      exact Option.some_ne_none v
    · change i ≤ a.instanceH + 1 at hle
      rw [hother (by omega)]
      exact h.defined i hpos (by omega)
  · refine (h.file.decided hbound hv hline).congr fun i hpos hle => ?_
    by_cases hlast : i = a.instanceH + 1
    · rw [hlast, Function.update_self, Acceptor.value, hvalues, Function.update_self,
        Option.getD_some]
    · rw [Function.update_of_ne hlast, Acceptor.value, hother (by omega), Acceptor.value]
  · rw [hvalues] at hw
    by_cases hlast : i = a.instanceH + 1
    · rw [hlast, Function.update_self, Option.some.injEq] at hw
      exact hw ▸ hv
    · rw [Function.update_of_ne hlast] at hw
      exact h.held i w hw

theorem Acceptor.Complete.value_holds (h : a.Complete Q) {i : Nat} (hpos : 1 ≤ i)
    (hle : i ≤ a.instanceH) : Q (a.value i) := by
  obtain ⟨v, hv⟩ := Option.ne_none_iff_exists'.mp (h.defined i hpos hle)
  rw [Acceptor.value, hv]
  exact h.held i v hv

/-- A handler keeps the history complete: it decides the next instance or none. -/
theorem Acceptor.Outcome.complete {next : Acceptor} {req : Request} {res : Response}
    (houtcome : a.Outcome req next res) (h : a.Complete Q) (hreq : req.Legible Q)
    (hline : ∀ v, Q v → '\n' ∉ v.toList) : next.Complete Q := by
  cases houtcome with
  | oldinstance hinst => exact h
  | @promised arg hinst hn =>
      exact h.append (.propseen arg.n) hreq trivial rfl rfl rfl rfl h.accepted
  | rejected hinst hn => exact h
  | @voted arg hn =>
      obtain ⟨hnumber, hname, hv⟩ := hreq
      exact h.append (.accepted arg.n arg.v) ⟨hnumber, hname, hline _ hv⟩ hv rfl rfl rfl
        rfl (.inr hv)
  | refused hn => exact h
  | committed hinst hv => exact h.committed hinst hreq.1 hreq.2 (hline _ hreq.2)
  | ignored => exact h

/-- So does a commit of an instance that is at most the next one. -/
theorem Acceptor.Complete.commit (h : a.Complete Q) {inst : Nat} {v : String}
    (hnext : inst ≤ a.instanceH + 1) (hbound : inst < unsignedBound) (hv : inst ≠ 0 → Q v)
    (hline : ∀ v, Q v → '\n' ∉ v.toList) : (a.commit inst v).Complete Q := by
  rcases Nat.lt_or_ge a.instanceH inst with hlt | hge
  · have hQ := hv (by omega)
    rw [Acceptor.commit, Acceptor.commitWo_of_lt hlt]
    exact h.committed (by omega) hbound hQ (hline _ hQ)
  · rw [Acceptor.commit, Acceptor.commitWo_of_le hge]
    exact h

/-! ### Reading a complete log -/

theorem vA_foldl_replay {records : List Record} (hrecords : ∀ record ∈ records, record.Holds Q)
    (h : a.vA = "" ∨ Q a.vA) :
    (records.foldl Acceptor.replay a).vA = "" ∨ Q (records.foldl Acceptor.replay a).vA := by
  induction records generalizing a with
  | nil => exact h
  | cons record records ih =>
      refine ih (fun r hr => hrecords r (List.mem_cons_of_mem _ hr)) ?_
      have hrecord := hrecords record List.mem_cons_self
      cases record with
      | done inst v => exact .inl rfl
      | propseen nH => exact h
      | accepted n v => exact .inr hrecord

theorem values_foldl_replay_holds {records : List Record}
    (hrecords : ∀ record ∈ records, record.Holds Q) (h : ∀ i v, a.values i = some v → Q v) :
    ∀ i v, (records.foldl Acceptor.replay a).values i = some v → Q v := by
  induction records generalizing a with
  | nil => exact h
  | cons record records ih =>
      refine ih (fun r hr => hrecords r (List.mem_cons_of_mem _ hr)) ?_
      have hrecord := hrecords record List.mem_cons_self
      cases record with
      | done inst w =>
          intro i v hv
          change Function.update a.values inst (some w) i = some v at hv
          by_cases heq : i = inst
          · rw [heq, Function.update_self, Option.some.injEq] at hv
            exact hv ▸ hrecord
          · rw [Function.update_of_ne heq] at hv
            exact h i v hv
      | propseen nH => exact h
      | accepted n w => exact h

/-- What `logread` makes of an acceptor when the file is a chronicle. -/
structure Acceptor.Reads (Q : String → Prop) (value : Nat → String) (last : Nat)
    (a next : Acceptor) : Prop where
  me : next.me = a.me
  instanceH : next.instanceH = if last = 0 then a.instanceH else last
  read : ∀ i, 1 ≤ i → i ≤ last → next.values i = some (value i)
  kept : ∀ i, i = 0 ∨ last < i → next.values i = a.values i
  complete : a.values 0 = none → (last = 0 → a.instanceH = 0 ∧ ∀ i, a.values i = none) →
    (a.vA = "" ∨ Q a.vA) → (∀ i v, a.values i = some v → Q v) → next.Complete Q

theorem me_foldl_replay (records : List Record) (a : Acceptor) :
    (records.foldl Acceptor.replay a).me = a.me := by
  induction records generalizing a with
  | nil => rfl
  | cons record records ih =>
      rw [List.foldl_cons, ih]
      cases record <;> rfl

theorem Acceptor.reads_of_logread {value : Nat → String} {last : Nat} {junk : Nat}
    (hfile : Chronicle Q value last a.file) {next : Acceptor}
    (hnext : a.logread junk = some next) : a.Reads Q value last next := by
  obtain ⟨records, htext, hrecords, hdecisions⟩ := hfile
  rw [logread_readable (fun r hr => (hrecords r hr).1) htext, Option.some.injEq] at hnext
  subst hnext
  have hkeys : (decisions records).map Prod.fst = List.range' 1 last := by
    rw [hdecisions, List.map_map]
    exact List.map_id _
  have hinst := instanceH_foldl_replay_of_ascending hkeys a
  have hread : ∀ i, 1 ≤ i → i ≤ last →
      (records.foldl Acceptor.replay a).values i = some (value i) := fun i hpos hle => by
    refine values_foldl_replay_of_mem (hkeys ▸ List.nodup_range') ?_ a
    rw [hdecisions]
    exact List.mem_map_of_mem (List.mem_range'_1.mpr ⟨hpos, by omega⟩)
  have hkept : ∀ i, i = 0 ∨ last < i →
      (records.foldl Acceptor.replay a).values i = a.values i := fun i hi => by
    refine values_foldl_replay_of_not_mem ?_ a
    rw [hkeys, List.mem_range'_1]
    omega
  refine ⟨me_foldl_replay records a, hinst, hread, hkept, fun hzero hblank haccepted hheld => ?_⟩
  have hlast : (records.foldl Acceptor.replay a).instanceH = last := by
    rw [hinst]
    split
    · rename_i hnone
      rw [(hblank hnone).1, hnone]
    · rfl
  refine ⟨(hkept 0 (.inl rfl)).trans hzero, fun hnone i => ?_, fun i hpos hle => ?_, ?_,
    vA_foldl_replay (fun r hr => (hrecords r hr).2) haccepted,
    values_foldl_replay_holds (fun r hr => (hrecords r hr).2) hheld⟩
  · rw [hlast] at hnone
    rw [hkept i (by omega)]
    exact (hblank hnone).2 i
  · rw [hread i hpos (hlast ▸ hle)]
    exact Option.some_ne_none _
  · have hsame : (records.foldl Acceptor.replay a).file = a.file := by
      rw [show a = { a with file := a.file } from rfl, Acceptor.foldl_replay_file]
    rw [hlast, hsame, htext]
    refine Chronicle.congr ⟨records, rfl, hrecords, hdecisions⟩ fun i hpos hle => ?_
    rw [Acceptor.value, hread i hpos hle, Option.getD_some]

/-- `dump` copies a chronicle. -/
theorem Chronicle.dump {value : Nat → String} {last : Nat} {text : List Char}
    (h : Chronicle Q value last text) : logDump text = text := by
  obtain ⟨records, rfl, hrecords, -⟩ := h
  exact logDump_readable fun r hr => (hrecords r hr).1

/-- `logread` does not abort on a chronicle. -/
theorem Chronicle.logread_isSome {value : Nat → String} {last : Nat}
    (h : Chronicle Q value last a.file) (junk : Nat) : ∃ next, a.logread junk = some next := by
  obtain ⟨records, htext, hrecords, -⟩ := h
  exact ⟨_, Acceptor.logread_readable (fun r hr => (hrecords r hr).1) htext junk⟩

/-- The constructor over a chronicle; the first node logs its own name as the first view. -/
theorem Acceptor.complete_new {value : Nat → String} {last : Nat} {file : List Char}
    (hfile : Chronicle Q value last file) {first : Bool} {me : String} {junk : Nat}
    {next : Acceptor} (hnew : Acceptor.new first me me file junk = some next)
    (hme : first = true → Q me) (hline : ∀ v, Q v → '\n' ∉ v.toList) :
    next.Complete Q ∧ next.me = me := by
  obtain ⟨read, hread, rfl⟩ := Option.map_eq_some_iff.mp hnew
  have hreads := reads_of_logread (a := Acceptor.blank me file) hfile hread
  have hcomplete := hreads.complete rfl (fun _ => ⟨rfl, fun _ => rfl⟩) (.inl rfl) nofun
  unfold Acceptor.logFirst
  split
  · rename_i hlog
    have hQ := hme hlog.2
    -- the fields other than `n_h`, `n_a` and `v_a` are those of a commit of instance 1
    have hcommitted := hcomplete.committed (by rw [hlog.1]) (by decide) hQ (hline _ hQ)
    exact ⟨⟨hcommitted.zero, nofun, hcommitted.defined, hcommitted.file, hcomplete.accepted,
      hcommitted.held⟩, hreads.me⟩
  · exact ⟨hcomplete, hreads.me⟩

theorem Acceptor.one_le_instanceH_of_new {me : String} {file : List Char} {junk : Nat}
    {next : Acceptor} (hnew : Acceptor.new true me me file junk = some next) :
    1 ≤ next.instanceH := by
  obtain ⟨read, -, rfl⟩ := Option.map_eq_some_iff.mp hnew
  unfold Acceptor.logFirst
  split
  · exact Nat.le_refl 1
  · rename_i hlog
    exact Nat.one_le_iff_ne_zero.mpr fun hzero => hlog ⟨hzero, rfl⟩

end Complete

/-! ### The cluster -/

theorem Acceptor.Progress.instanceH_le {a next : Acceptor} (h : a.Progress next) :
    a.instanceH ≤ next.instanceH := by
  cases h with
  | kept records hundecided hlength hfile hinst hvalues hme => exact hinst.ge
  | decided inst v hinst hnext => exact hnext ▸ Nat.le_of_lt hinst

theorem Acceptor.Outcome.instanceH_le_succ {a next : Acceptor} {req : Request} {res : Response}
    (h : a.Outcome req next res) : next.instanceH ≤ a.instanceH + 1 := by
  cases h with
  | committed hinst hv => exact hinst.le
  | _ => exact Nat.le_succ _

theorem Cluster.Move.progress {s t : Cluster} {action : Action} (h : s.Move action t)
    (q : String) : (s.acc q).Progress (t.acc q) := by
  rcases h.acc_cases q with heq | ⟨req, res, houtcome⟩ | ⟨r, v, -, heq⟩
  · rw [heq]
    exact .refl _
  · exact houtcome.progress
  · rw [heq]
    exact Acceptor.progress_commit ..

/-- A step decides at most the next instance if no run is for a later one. -/
theorem Cluster.Move.instanceH_le_succ {s t : Cluster} {action : Action} (h : s.Move action t)
    {q : String} (hnext : ∀ r, (s.pro q).run = some r → r.inst ≤ (s.acc q).instanceH + 1) :
    (t.acc q).instanceH ≤ (s.acc q).instanceH + 1 := by
  rcases h.acc_cases q with heq | ⟨req, res, houtcome⟩ | ⟨r, v, hr, heq⟩
  · rw [heq]
    exact Nat.le_succ _
  · exact houtcome.instanceH_le_succ
  · have hr := hnext r hr
    rw [heq]
    rcases Nat.lt_or_ge (s.acc q).instanceH r.inst with hlt | hge
    · rw [Acceptor.commit, Acceptor.commitWo_of_lt hlt]
      exact hr
    · rw [Acceptor.commit, Acceptor.commitWo_of_le hge]
      exact Nat.le_succ _

/-- The value in an answer to a prepare for `inst` satisfies `Q`. -/
def PrepareRes.Holds (Q : String → Prop) (inst : Nat) (res : PrepareRes) : Prop :=
  (res.oldinstance = true → inst ≠ 0 → Q res.vA) ∧
  (res.oldinstance = false → res.vA = "" ∨ Q res.vA)

/-- All acceptors are complete, all values satisfy `Q`, and what is in the requests can be
    logged and read back. -/
structure Cluster.Chronicled (Q : String → Prop) (s : Cluster) : Prop where
  acceptor : ∀ p, (s.acc p).Complete Q
  call : ∀ call ∈ s.calls, call.req.Legible Q
  reply : ∀ {call arg res}, ⟨call, .prepare res⟩ ∈ s.replies → call.req = .prepare arg →
    res.Holds Q arg.inst
  myN : ∀ p, (s.pro p).myN.n < unsignedBound
  run : ∀ {p r}, (s.pro p).run = some r →
    r.inst < unsignedBound ∧ IsWord p ∧ r.Carries fun _ => Q

section Chronicled

variable {Q : String → Prop} {s : Cluster}

theorem Cluster.Chronicled.congr {t : Cluster} (h : s.Chronicled Q) (hacc : t.acc = s.acc)
    (hpro : t.pro = s.pro) (hcalls : t.calls = s.calls) (hreplies : t.replies = s.replies) :
    t.Chronicled Q where
  acceptor := hacc ▸ h.acceptor
  call := hcalls ▸ h.call
  reply := hreplies ▸ h.reply
  myN := hpro ▸ h.myN
  run := hpro ▸ h.run

theorem Cluster.Chronicled.setAcc (h : s.Chronicled Q) {p : String} {acc : Acceptor}
    (hacc : acc.Complete Q) : (s.setAcc p acc).Chronicled Q where
  acceptor := fun q => by
    rw [Cluster.acc_setAcc]
    split
    · exact hacc
    · exact h.acceptor q
  call := h.call
  reply := h.reply
  myN := fun q => by
    rw [Cluster.pro_setAcc]
    exact h.myN q
  run := fun hr => by
    rw [Cluster.pro_setAcc] at hr
    exact h.run hr

theorem Cluster.Chronicled.setPro (h : s.Chronicled Q) {p : String} {pro : Proposer}
    (hmyN : pro.myN.n < unsignedBound)
    (hrun : ∀ r, pro.run = some r →
      r.inst < unsignedBound ∧ IsWord p ∧ r.Carries fun _ => Q) :
    (s.setPro p pro).Chronicled Q where
  acceptor := fun q => by
    rw [Cluster.acc_setPro]
    exact h.acceptor q
  call := h.call
  reply := h.reply
  myN := fun q => by
    rw [Cluster.pro_setPro]
    split
    · exact hmyN
    · exact h.myN q
  run := fun {q r} hr => by
    rw [Cluster.pro_setPro] at hr
    split at hr
    · rename_i heq
      exact heq ▸ hrun r hr
    · exact h.run hr

theorem Cluster.Chronicled.setRun (h : s.Chronicled Q) {p : String} {run : Option Run}
    (hrun : ∀ r, run = some r → r.inst < unsignedBound ∧ IsWord p ∧ r.Carries fun _ => Q) :
    (s.setRun p run).Chronicled Q :=
  h.setPro (h.myN p) hrun

theorem Cluster.Chronicled.setDown (h : s.Chronicled Q) (p : String) :
    (s.setDown p).Chronicled Q :=
  h.congr (funext (s.acc_setDown p)) (funext (s.pro_setDown p)) rfl rfl

theorem Proposer.setn_lt (p : Proposer) (acc : Acceptor) : (p.setn acc).n < unsignedBound := by
  simp only [Proposer.setn]
  split <;> exact Nat.mod_lt _ (by decide)

/-- The request of a run can be logged. -/
theorem Run.Carries.legible {r : Run} (h : r.Carries fun _ => Q) {myN : PropT}
    (hinst : r.inst < unsignedBound) (hn : myN.n < unsignedBound) (hm : IsWord myN.m) :
    (r.request myN).Legible Q := by
  cases hphase : r.phase with
  | prepare => simpa only [Run.request, hphase, Request.Legible] using ⟨hn, hm⟩
  | accept =>
      simp only [Run.request, hphase, Request.Legible]
      exact ⟨hn, hm, h.2.2 (by rw [hphase]; decide)⟩
  | decide =>
      simp only [Run.request, hphase, Request.Legible]
      exact ⟨hinst, h.2.2 (by rw [hphase]; decide)⟩

/-- The answer of a complete acceptor to a prepare. -/
theorem Acceptor.Outcome.res_holds {a next : Acceptor} {arg : PrepareArg} {res : PrepareRes}
    (h : a.Outcome (.prepare arg) next (.prepare res)) (ha : a.Complete Q) :
    res.Holds Q arg.inst := by
  cases h with
  | oldinstance hinst =>
      exact ⟨fun _ hne => ha.value_holds (Nat.pos_of_ne_zero hne) hinst, nofun⟩
  | promised hinst hn => exact ⟨nofun, fun _ => ha.accepted⟩
  | rejected hinst hn => exact ⟨nofun, fun _ => .inl rfl⟩

/-- One step keeps all histories complete if a run starts with a value that satisfies `Q` at
    a node whose name is a word, and no run is for an instance beyond the next one. -/
theorem Cluster.Chronicled.move {action : Action} {t : Cluster} (h : s.Chronicled Q)
    (hwired : s.Wired) (hmove : s.Move action t) (hline : ∀ v, Q v → '\n' ∉ v.toList)
    (hrun : ∀ p inst curNodes newv, action = .run p inst curNodes newv → IsWord p ∧ Q newv)
    (hnext : ∀ p r, (s.pro p).run = some r → r.inst ≤ (s.acc p).instanceH + 1) :
    t.Chronicled Q := by
  have advance : ∀ {p r}, (s.pro p).run = some r →
      (s.setRun p (some r.advance)).Chronicled Q := fun {p r} hr =>
    h.setRun fun r' hr' => by
      obtain rfl := Option.some.inj hr'
      obtain ⟨hinst, hword, hcarries⟩ := h.run hr
      exact ⟨hinst, hword, hcarries⟩
  cases hmove with
  | @run p inst curNodes newv hidle hinst =>
      obtain ⟨hword, hnewv⟩ := hrun p inst curNodes newv rfl
      have hset : (s.setPro p ((s.pro p).start (s.acc p) inst curNodes newv)).Chronicled Q := by
        refine h.setPro (Proposer.setn_lt _ _) fun r hr => ?_
        obtain rfl := Option.some.inj hr
        exact ⟨hinst, hword, hnewv, fun _ => .inl rfl, fun hne => absurd rfl hne⟩
      exact ⟨hset.acceptor, hset.call, hset.reply, hset.myN, hset.run⟩
  | @call p r dst hr hpending hdst =>
      obtain ⟨hinst, hword, hcarries⟩ := h.run hr
      have hset : (s.setPro p { s.pro p with
          run := some { r with pending := some (s.pro p).xid }
          xid := (s.pro p).xid + 1 }).Chronicled Q := by
        refine h.setPro (h.myN p) fun r' hr' => ?_
        obtain rfl := Option.some.inj hr'
        exact ⟨hinst, hword, hcarries⟩
      refine ⟨hset.acceptor, fun c hc => ?_, hset.reply, hset.myN, hset.run⟩
      rcases List.mem_cons.mp hc with rfl | hold
      · refine hcarries.legible hinst (h.myN p) ?_
        rw [hwired.owner p]
        exact hword
      · exact h.call c hold
  | skip hr => exact advance hr
  | @handled call acc res hcall houtcome =>
      have hset := h.setAcc (p := call.dst)
        (houtcome.complete (h.acceptor _) (h.call _ hcall) hline)
      refine ⟨hset.acceptor, hset.call, fun {c arg r} hreply hreq => ?_, hset.myN, hset.run⟩
      rcases List.mem_cons.mp hreply with heq | hold
      · obtain ⟨rfl, rfl⟩ := Reply.mk.inj heq
        rw [hreq] at houtcome
        exact houtcome.res_holds (h.acceptor _)
      · exact h.reply hold hreq
  | aborted => exact h.setDown _
  | @oldinstance p r call res hr hreply hclt hpending hphase hold =>
      have hreq := hwired.replied hr hreply hclt hpending
      simp only [Run.request, hphase] at hreq
      have hcommit := (h.acceptor p).commit (hnext p r hr) (h.run hr).1
        ((h.reply hreply hreq).1 hold) hline
      exact (h.setAcc hcommit).setRun (by simp)
  | @prepared p r call res hr hreply hclt hpending hphase hold =>
      have hreq := hwired.replied hr hreply hclt hpending
      simp only [Run.request, hphase] at hreq
      obtain ⟨hinst, hword, hcarries⟩ := h.run hr
      have hres := h.reply hreply hreq
      refine h.setRun fun r' hr' => ?_
      obtain rfl := Option.some.inj hr'
      refine ⟨?_, hword, hcarries.onPrepare hphase ⟨fun hyes hlt => ?_, hres.2⟩ hold⟩
      · exact ((r.onPrepare_inst_phase call.dst res).1 ▸ hinst)
      · exact hres.1 hyes (Nat.ne_of_gt (Nat.lt_trans Nat.zero_lt_one hlt))
  | @accepted p r call granted hr hreply hclt hpending hphase =>
      obtain ⟨hinst, hword, hcarries⟩ := h.run hr
      refine h.setRun fun r' hr' => ?_
      obtain rfl := Option.some.inj hr'
      refine ⟨?_, hword, hcarries.onAccept⟩
      exact ((r.onAccept_frame call.dst granted).1 ▸ hinst)
  | decided hr => exact advance hr
  | @next p r hr hindex =>
      obtain ⟨hinst, hword, hcarries⟩ := h.run hr
      refine h.setRun fun r' hr' => ⟨?_, hword, hcarries.next hr'⟩
      rw [Run.next_inst hr']
      exact hinst

end Chronicled

end DistributedLab.Paxos
