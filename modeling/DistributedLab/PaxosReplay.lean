import DistributedLab.PaxosLog
import DistributedLab.Transition

/-!
# Replaying the log against the acceptor in memory

Every handler that changes the acceptor appends the record that repeats the change,
so an acceptor and the replay of its file stay in step: `commit_wo` resets `n_h`,
`n_a` and `v_a` exactly where reading a `done` record does.  The constructor is the
one writer that breaks this.  When it logs the first view over a file that already
holds proposals, the fields it has just read stay as they are, while the replay of
the new `done` record clears them.
-/

namespace DistributedLab.Paxos

open TextStream Transition

/-! ### Calls on one acceptor -/

/-- A call on an acceptor. -/
inductive Op where
  | request (req : Request)
  | commit (inst : Nat) (value : String)
deriving DecidableEq, Repr

def Acceptor.perform (a : Acceptor) : Op → Option Acceptor
  | .request req => (a.handle req).map Prod.fst
  | .commit inst value => some (a.commit inst value)

/-- Arguments of type `unsigned`, round numbers from 1 on, node names without blanks,
    values on one line. -/
def Op.WF : Op → Prop
  | .request (.prepare arg) =>
      arg.inst < unsignedBound ∧ 1 ≤ arg.n.n ∧ arg.n.n < unsignedBound ∧ IsWord arg.n.m
  | .request (.accept arg) =>
      arg.inst < unsignedBound ∧ 1 ≤ arg.n.n ∧ arg.n.n < unsignedBound ∧ IsWord arg.n.m ∧
        '\n' ∉ arg.v.toList
  | .request (.decide arg) => arg.inst < unsignedBound ∧ '\n' ∉ arg.v.toList
  | .commit inst value => inst < unsignedBound ∧ '\n' ∉ value.toList

instance : DecidablePred Op.WF
  | .request (.prepare _) => inferInstanceAs (Decidable (_ ∧ _))
  | .request (.accept _) => inferInstanceAs (Decidable (_ ∧ _))
  | .request (.decide _) => inferInstanceAs (Decidable (_ ∧ _))
  | .commit _ _ => inferInstanceAs (Decidable (_ ∧ _))

/-- The sequences of calls on the acceptor `start`. -/
def calls (start : Acceptor) : System Acceptor Op where
  init := fun a => a = start
  step := Acceptor.perform

/-! ### Agreement with the replayed log -/

/-- What a fresh acceptor has in common with the one whose log it read.  The name in a
    proposal number counts only when the round number is not zero. -/
structure Acceptor.Agrees (a fresh : Acceptor) : Prop where
  instanceH : fresh.instanceH = a.instanceH
  value : ∀ inst, fresh.values inst = a.values inst
  vA : fresh.vA = a.vA
  nH : fresh.nH.n = a.nH.n
  nA : fresh.nA.n = a.nA.n
  nHName : a.nH.n ≠ 0 → fresh.nH.m = a.nH.m
  nAName : a.nA.n ≠ 0 → fresh.nA.m = a.nA.m

/-- The state that a well-formed log stands for: its replay from nothing. -/
def replayed (me : String) (records : List Record) : Acceptor :=
  records.foldl Acceptor.replay (Acceptor.blank me [])

theorem replayed_append (me : String) (records : List Record) (record : Record) :
    replayed me (records ++ [record]) = (replayed me records).replay record := by
  simp [replayed, List.foldl_append]

/-- The acceptor in memory and the replay of its file are in step. -/
def Acceptor.Logged (me : String) (a : Acceptor) : Prop :=
  ∃ records : List Record, (∀ record ∈ records, record.WF) ∧ a.file = logText records ∧
    a.Agrees (replayed me records)

/-- Appending the record that repeats a change keeps memory and file in step. -/
theorem Acceptor.Logged.append {me : String} {a next : Acceptor} (h : a.Logged me)
    (record : Record) (hwf : record.WF) (hfile : next.file = a.file ++ record.text)
    (hagrees : ∀ fresh, a.Agrees fresh → next.Agrees (fresh.replay record)) : next.Logged me := by
  obtain ⟨records, hrecords, hlog, hfresh⟩ := h
  refine ⟨records ++ [record], ?_, ?_, ?_⟩
  · exact Record.wf_append hrecords hwf
  · rw [hfile, hlog, logText_append, logText_singleton]
  · rw [replayed_append]
    exact hagrees _ hfresh

theorem Acceptor.Agrees.committed {a fresh : Acceptor} (h : a.Agrees fresh) (inst : Nat)
    (value : String) : (a.committed inst value).Agrees (fresh.replay (.done inst value)) where
  instanceH := rfl
  value := by
    intro other
    have hvalues : fresh.values = a.values := funext h.value
    simp only [Acceptor.replay, Acceptor.committed, Acceptor.append, hvalues]
  vA := rfl
  nH := rfl
  nA := rfl
  nHName := fun hne => absurd rfl hne
  nAName := fun hne => absurd rfl hne

/-- Each handler keeps memory and file in step. -/
theorem Acceptor.Outcome.logged {me : String} {a next : Acceptor} {req : Request}
    {res : Response} (h : a.Outcome req next res) (hlogged : a.Logged me)
    (hwf : (Op.request req).WF) : next.Logged me := by
  cases h with
  | oldinstance hinst => exact hlogged
  | promised hinst hn =>
      obtain ⟨-, hround⟩ := hwf
      exact hlogged.append (.propseen _) hround rfl fun fresh hfresh =>
        ⟨hfresh.instanceH, hfresh.value, hfresh.vA, rfl, hfresh.nA, fun _ => rfl, hfresh.nAName⟩
  | rejected hinst hn => exact hlogged
  | voted hn =>
      obtain ⟨-, hround⟩ := hwf
      exact hlogged.append (.accepted _ _) hround rfl fun fresh hfresh =>
        ⟨hfresh.instanceH, hfresh.value, rfl, hfresh.nH, rfl, hfresh.nHName, fun _ => rfl⟩
  | refused hn => exact hlogged
  | committed hinst hv =>
      obtain ⟨hbound, hline⟩ := hwf
      exact hlogged.append (.done _ _) ⟨by omega, hbound, hline⟩ rfl fun fresh hfresh =>
        hfresh.committed _ _
  | ignored => exact hlogged

theorem Acceptor.Logged.commit {me : String} {a : Acceptor} {inst : Nat} {value : String}
    (h : a.Logged me) (hwf : (Op.commit inst value).WF) : (a.commit inst value).Logged me := by
  obtain ⟨hbound, hline⟩ := hwf
  rcases Nat.lt_or_ge a.instanceH inst with hlt | hge
  · rw [Acceptor.commit, commitWo_of_lt hlt]
    exact h.append (.done _ _) ⟨by omega, hbound, hline⟩ rfl
      fun fresh hfresh => hfresh.committed _ _
  · rw [Acceptor.commit, commitWo_of_le hge]
    exact h

theorem Acceptor.Logged.perform {me : String} {a next : Acceptor} {op : Op} (h : a.Logged me)
    (hwf : op.WF) (hstep : a.perform op = some next) : next.Logged me := by
  cases op with
  | request req =>
      obtain ⟨⟨after, res⟩, hhandle, rfl⟩ := Option.map_eq_some_iff.mp hstep
      exact (handle_outcome hhandle).logged h hwf
  | commit inst value =>
      cases hstep
      exact h.commit hwf

/-! ### The constructor -/

/-- Replay does not look at the file it came from. -/
theorem Acceptor.foldl_replay_file (records : List Record) (a : Acceptor) (file : List Char) :
    records.foldl Acceptor.replay { a with file := file } =
      { records.foldl Acceptor.replay a with file := file } := by
  induction records generalizing a with
  | nil => rfl
  | cons record records ih =>
      have hreplay : ({ a with file := file } : Acceptor).replay record =
          { a.replay record with file := file } := by
        cases record <;> rfl
      rw [List.foldl_cons, List.foldl_cons, hreplay, ih]

/-- The constructor over a well-formed log. -/
theorem Acceptor.new_logText {records : List Record} (hwf : ∀ record ∈ records, record.WF)
    (first : Bool) (me value : String) (junk : Nat) :
    Acceptor.new first me value (logText records) junk =
      some (({ replayed me records with file := logText records }).logFirst first value) := by
  have hread := logread_logText hwf (a := Acceptor.blank me (logText records)) rfl junk
  rw [Acceptor.new, hread, Option.map_some, replayed, ← foldl_replay_file]
  rfl

/-- Some record decides an instance. -/
def Record.isDone : Record → Bool
  | .done _ _ => true
  | _ => false

theorem Acceptor.instanceH_replay_ne_zero {a : Acceptor} {record : Record} (hwf : record.WF)
    (h : a.instanceH ≠ 0 ∨ record.isDone = true) : (a.replay record).instanceH ≠ 0 := by
  cases record with
  | done inst v => exact Nat.ne_of_gt hwf.1
  | propseen nH => exact h.resolve_right (by simp [Record.isDone])
  | accepted n v => exact h.resolve_right (by simp [Record.isDone])

/-- What a call does to the decided history: it decides one higher instance, or logs at most
    one proposal. -/
inductive Acceptor.Progress (a next : Acceptor) : Prop
  | kept (records : List Record) (hundecided : ∀ record ∈ records, record.isDone = false)
      (hlength : records.length ≤ 1) (hfile : next.file = a.file ++ logText records)
      (hinst : next.instanceH = a.instanceH) (hvalues : next.values = a.values)
      (hme : next.me = a.me)
  | decided (inst : Nat) (v : String) (hinst : a.instanceH < inst)
      (hnext : next = a.committed inst v)

theorem Acceptor.Progress.refl (a : Acceptor) : a.Progress a :=
  .kept [] (by simp) (by simp) (by simp [logText]) rfl rfl rfl

theorem Acceptor.Outcome.progress {a next : Acceptor} {req : Request} {res : Response}
    (h : a.Outcome req next res) : a.Progress next := by
  cases h with
  | @promised arg hinst hn =>
      exact .kept [.propseen arg.n] (by simp [Record.isDone]) (by simp) (by simp [append]) rfl rfl
        rfl
  | @voted arg hn =>
      exact .kept [.accepted arg.n arg.v] (by simp [Record.isDone]) (by simp) (by simp [append])
        rfl rfl rfl
  | committed hinst hv => exact .decided _ _ (by omega) rfl
  | oldinstance hinst => exact .refl a
  | rejected hinst hn => exact .refl a
  | refused hn => exact .refl a
  | ignored => exact .refl a

theorem Acceptor.progress_commit (a : Acceptor) (inst : Nat) (value : String) :
    a.Progress (a.commit inst value) := by
  rcases Nat.lt_or_ge a.instanceH inst with hlt | hge
  · exact .decided inst value hlt (commitWo_of_lt hlt)
  · rw [Acceptor.commit, commitWo_of_le hge]
    exact .refl a

theorem Acceptor.progress_perform {a next : Acceptor} {op : Op} (h : a.perform op = some next) :
    a.Progress next := by
  cases op with
  | request req =>
      obtain ⟨⟨after, res⟩, hhandle, rfl⟩ := Option.map_eq_some_iff.mp h
      exact (handle_outcome hhandle).progress
  | commit inst value =>
      cases h
      exact a.progress_commit inst value

/-- A log with a `done` record replays to a decided instance. -/
theorem instanceH_foldl_replay_ne_zero {records : List Record}
    (hwf : ∀ record ∈ records, record.WF) :
    ∀ {a : Acceptor}, (a.instanceH ≠ 0 ∨ ∃ record ∈ records, record.isDone = true) →
      (records.foldl Acceptor.replay a).instanceH ≠ 0 := by
  induction records with
  | nil =>
      intro a h
      exact h.resolve_right (by simp)
  | cons record records ih =>
      intro a h
      rw [List.foldl_cons]
      apply ih fun r hr => hwf r (List.mem_cons_of_mem _ hr)
      rcases h with h | ⟨r, hr, hdone⟩
      · exact .inl (Acceptor.instanceH_replay_ne_zero (hwf record List.mem_cons_self) (.inl h))
      · rcases List.mem_cons.mp hr with rfl | hr
        · exact .inl (Acceptor.instanceH_replay_ne_zero (hwf r List.mem_cons_self) (.inr hdone))
        · exact .inr ⟨r, hr, hdone⟩

/-- A log of proposals alone replays to no decided instance and some round number. -/
theorem foldl_replay_of_undecided {records : List Record} (hwf : ∀ record ∈ records, record.WF)
    (hundecided : ∀ record ∈ records, record.isDone = false) :
    ∀ a : Acceptor, (a.nH.n ≠ 0 ∨ a.nA.n ≠ 0 ∨ records ≠ []) →
      (records.foldl Acceptor.replay a).instanceH = a.instanceH ∧
        ((records.foldl Acceptor.replay a).nH.n ≠ 0 ∨
          (records.foldl Acceptor.replay a).nA.n ≠ 0) := by
  induction records with
  | nil =>
      intro a h
      exact ⟨rfl, by simpa using h⟩
  | cons record records ih =>
      intro a h
      have hrecord := hwf record List.mem_cons_self
      have htail := ih (fun r hr => hwf r (List.mem_cons_of_mem _ hr))
        fun r hr => hundecided r (List.mem_cons_of_mem _ hr)
      rw [List.foldl_cons]
      cases record with
      | done inst v => exact absurd (hundecided _ List.mem_cons_self) (by simp [Record.isDone])
      | propseen nH => exact htail (a.replay (.propseen nH)) (.inl (Nat.ne_of_gt hrecord.1))
      | accepted n v =>
          exact htail (a.replay (.accepted n v)) (.inr (.inl (Nat.ne_of_gt hrecord.1)))

/-- A fresh acceptor over the file of `a`, whose constructor only reads the log, agrees
    with `a`. -/
def Acceptor.Recovers (me : String) (a : Acceptor) : Prop :=
  ∀ (value : String) (junk : Nat), ∃ fresh,
    Acceptor.new false me value a.file junk = some fresh ∧ a.Agrees fresh

theorem Acceptor.logFirst_false (a : Acceptor) (value : String) : a.logFirst false value = a := by
  simp [logFirst]

/-- The first view goes to the end of the log. -/
theorem Acceptor.file_logFirst {records : List Record} {a : Acceptor} {value : String}
    (hfile : a.file = logText records) (hzero : a.instanceH = 0) :
    (a.logFirst true value).file = logText (records ++ [.done 1 value]) := by
  rw [logFirst, if_pos ⟨hzero, rfl⟩, append, hfile, logText_append, logText_singleton]

theorem Acceptor.Logged.recovers {me : String} {a : Acceptor} (h : a.Logged me) :
    a.Recovers me := by
  intro value junk
  obtain ⟨records, hrecords, hfile, hagrees⟩ := h
  refine ⟨{ replayed me records with file := logText records }, ?_, ?_⟩
  · rw [hfile, new_logText hrecords, logFirst_false]
  · exact ⟨hagrees.instanceH, hagrees.value, hagrees.vA, hagrees.nH, hagrees.nA,
      hagrees.nHName, hagrees.nAName⟩

/-- The constructor leaves memory and file in step unless it logs the first view over a log
    of proposals. -/
theorem Acceptor.logged_logFirst {records : List Record} (hwf : ∀ record ∈ records, record.WF)
    {first : Bool} {value : String} (hvalue : '\n' ∉ value.toList) (me : String)
    (hclean : first = false ∨ records = [] ∨ ∃ record ∈ records, record.isDone = true) :
    (({ replayed me records with file := logText records }).logFirst first value).Logged me := by
  have hread : ({ replayed me records with file := logText records } : Acceptor).Logged me :=
    ⟨records, hwf, rfl, rfl, fun _ => rfl, rfl, rfl, rfl, fun _ => rfl, fun _ => rfl⟩
  rcases hclean with rfl | rfl | hdone
  · rw [logFirst_false]
    exact hread
  · cases first with
    | false =>
        rw [logFirst_false]
        exact hread
    | true =>
        refine hread.append (.done 1 value) ⟨le_refl 1, by decide, hvalue⟩ rfl
          fun fresh hfresh => ?_
        have hvalues : fresh.values = fun _ => none := funext hfresh.value
        exact ⟨rfl, fun inst => by simp only [replay, hvalues]; rfl, rfl, rfl, rfl,
          fun hne => absurd rfl hne, fun hne => absurd rfl hne⟩
  · have hdecided : (replayed me records).instanceH ≠ 0 :=
      instanceH_foldl_replay_ne_zero hwf (.inr hdone)
    rw [logFirst, if_neg fun h => hdecided h.1]
    exact hread

/-- **Replay refines the acceptor.**  After every sequence of calls on an acceptor started
    from a well-formed log, a fresh acceptor over the resulting file has the same decided
    instances and values, accepted value and proposal numbers, exactly when the acceptor was
    not started as the first node over a log that holds proposals but no decision. -/
theorem replay_agrees_iff (me value : String) (first : Bool) {records : List Record}
    (hrecords : ∀ record ∈ records, record.WF) (hvalue : '\n' ∉ value.toList) (junk : Nat) :
    (∃ start, Acceptor.new first me value (logText records) junk = some start ∧
      ∀ a, (calls start).Reach (fun _ op => op.WF) a → a.Recovers me) ↔
      (first = false ∨ records = [] ∨ ∃ record ∈ records, record.isDone = true) := by
  constructor
  · rintro ⟨start, hnew, hruns⟩
    by_contra hclean
    simp only [not_or, Bool.not_eq_false, not_exists, not_and, Bool.not_eq_true] at hclean
    obtain ⟨rfl, hproposals, hundecided⟩ := hclean
    obtain ⟨hzero, hround⟩ := foldl_replay_of_undecided hrecords hundecided
      (Acceptor.blank me []) (.inr (.inr hproposals))
    -- the constructor has appended `done 1` to the log and kept the round numbers it read
    have hstart : start =
        ({ replayed me records with file := logText records }).logFirst true value :=
      Option.some.inj (hnew.symm.trans (Acceptor.new_logText hrecords true me value junk))
    have hfile : start.file = logText (records ++ [.done 1 value]) := by
      rw [hstart]
      exact Acceptor.file_logFirst rfl hzero
    have hkept : start.nH.n ≠ 0 ∨ start.nA.n ≠ 0 := by
      rw [hstart, Acceptor.logFirst, if_pos ⟨hzero, rfl⟩]
      exact hround
    obtain ⟨fresh, hfresh, hagrees⟩ := hruns start (.init rfl) value junk
    have hwf : ∀ record ∈ records ++ [.done 1 value], record.WF :=
      Record.wf_append hrecords ⟨le_refl 1, by decide, hvalue⟩
    rw [hfile, Acceptor.new_logText hwf, Acceptor.logFirst_false, replayed_append,
      Option.some.injEq] at hfresh
    subst hfresh
    -- the replay of that record clears them
    rcases hkept with hne | hne
    · exact hne hagrees.nH.symm
    · exact hne hagrees.nA.symm
  · intro hclean
    refine ⟨_, Acceptor.new_logText hrecords first me value junk, fun a hreach => ?_⟩
    have hlogged : a.Logged me := by
      refine hreach.invariant (P := fun a => a.Logged me) ?_ ?_
      · rintro start rfl
        exact Acceptor.logged_logFirst hrecords hvalue me hclean
      · intro state next op h hwf hstep
        exact h.perform hwf hstep
    exact hlogged.recovers

/-- The first node over an empty log. -/
theorem replay_agrees_first_node :
    ∃ start, Acceptor.new true "a" "a " [] 0 = some start ∧
      ∀ a, (calls start).Reach (fun _ op => op.WF) a → a.Recovers "a" :=
  (@replay_agrees_iff "a" "a " true [] (by simp) (by decide) 0).mpr (.inr (.inl rfl))

/-- A node that was started without being the first one has granted a prepare request;
    restarted as the first node it holds a proposal number that its log no longer gives. -/
theorem first_view_keeps_proposals :
    ∃ start before : Acceptor,
      Acceptor.new false "a" "" [] 0 = some start ∧
      start.perform (.request (.prepare ⟨1, ⟨1, "b"⟩⟩)) = some before ∧
      ∃ restarted, Acceptor.new true "a" "a " before.file 0 = some restarted ∧
        ¬ restarted.Recovers "a" := by
  have hpropseen : ∀ record ∈ [Record.propseen ⟨1, "b"⟩], record.WF := by decide
  have hdone : ∀ record ∈ [Record.propseen ⟨1, "b"⟩] ++ [.done 1 "a "], record.WF := by decide
  refine ⟨_, _, @Acceptor.new_logText [] (by simp) false "a" "" 0, rfl, _,
    (@Acceptor.new_logText [.propseen ⟨1, "b"⟩] hpropseen true "a" "a " 0), fun hrecovers => ?_⟩
  obtain ⟨fresh, hfresh, hagrees⟩ := hrecovers "" 0
  rw [Acceptor.file_logFirst rfl rfl, Acceptor.new_logText hdone, Acceptor.logFirst_false,
    Option.some.injEq] at hfresh
  subst hfresh
  exact absurd hagrees.nH (by decide)

end DistributedLab.Paxos
