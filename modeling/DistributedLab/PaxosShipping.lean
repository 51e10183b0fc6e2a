import DistributedLab.ConfigHistory
import DistributedLab.PaxosPromise
import DistributedLab.PaxosTransfer

/-!
# Logs that are shipped to another acceptor

`restore` reads the log of one acceptor into another one whose fields are not cleared first.
What the other one had before does not matter once a `done` record is read: this record sets
`instance_h`, clears the proposals, and every value that the log decides is overwritten.  So
the reader gets what the log says, and the question is whether the writer still has what its
own log says.  It does, except where the constructor logs the first view over a log of
proposals, which it keeps in memory while the new record clears them for every reader.
-/

namespace DistributedLab.Paxos

open TextStream Transition

/-! ### What a reader has had before -/

section Replay

variable {records : List Record}

/-- The round and `instance_h` that a log with a decision leaves do not depend on the reader. -/
theorem foldl_replay_of_done (h : ∃ record ∈ records, record.isDone = true) (a b : Acceptor) :
    (records.foldl Acceptor.replay a).round = (records.foldl Acceptor.replay b).round ∧
      (records.foldl Acceptor.replay a).instanceH =
        (records.foldl Acceptor.replay b).instanceH := by
  induction records using List.reverseRecOn with
  | nil => simp at h
  | append_singleton records record ih =>
      simp only [List.foldl_append, List.foldl_cons, List.foldl_nil]
      by_cases hdone : record.isDone = true
      · cases record with
        | done inst v => exact ⟨rfl, rfl⟩
        | propseen nH => cases hdone
        | accepted n v => cases hdone
      · obtain ⟨r, hr, hrdone⟩ := h
        have hold : ∃ record ∈ records, record.isDone = true := by
          rcases List.mem_append.mp hr with hr | hr
          · exact ⟨r, hr, hrdone⟩
          · rw [List.mem_singleton.mp hr] at hrdone
            exact absurd hrdone hdone
        obtain ⟨hround, hinst⟩ := ih hold
        refine ⟨Acceptor.round_replay hround record, ?_⟩
        cases record with
        | done inst v => exact absurd rfl hdone
        | propseen nH => exact hinst
        | accepted n v => exact hinst

/-- Nor do the values that the log decides. -/
theorem values_foldl_replay {inst : Nat} {v : String} (h : .done inst v ∈ records)
    (a b : Acceptor) : (records.foldl Acceptor.replay a).values inst =
      (records.foldl Acceptor.replay b).values inst := by
  induction records using List.reverseRecOn with
  | nil => cases h
  | append_singleton records record ih =>
      simp only [List.foldl_append, List.foldl_cons, List.foldl_nil]
      cases record with
      | done other w =>
          by_cases hsame : inst = other
          · subst hsame
            simp [Acceptor.replay]
          · have hold : .done inst v ∈ records := by simpa [hsame] using h
            simpa [Acceptor.replay, hsame] using ih hold
      | propseen nH => exact ih (by simpa using h)
      | accepted n w => exact ih (by simpa using h)

theorem lastDone_of_done (h : ∃ record ∈ records, record.isDone = true)
    (hreadable : ∀ record ∈ records, record.Readable) : ∃ inst, lastDone records = some inst ∧
      1 ≤ inst := by
  induction records using List.reverseRecOn with
  | nil => simp at h
  | append_singleton records record ih =>
      rw [lastDone_append]
      cases record with
      | done inst v =>
          have hdone : (Record.done inst v).Readable := hreadable _ (by simp)
          exact ⟨inst, rfl, hdone.1⟩
      | propseen nH => exact ih (by simpa [Record.isDone] using h) (by simp_all)
      | accepted n v => exact ih (by simpa [Record.isDone] using h) (by simp_all)

end Replay

/-! ### The life of an acceptor -/

/-- Numbers of type `unsigned`, names that are words, values on one line. -/
def Op.Legible : Op → Prop
  | .request req => req.Legible Config.OneLine
  | .commit inst value => inst < unsignedBound ∧ Config.OneLine value

def Member.Action.Legible : Member.Action → Prop
  | .call op => op.Legible
  | .crash _ value _ => Config.OneLine value
  | .restore log _ => ∀ record ∈ log, record.Readable

def Acceptor.live (a : Acceptor) : Member.Action → Option Acceptor
  | .call op => a.perform op
  | .crash first value junk => Acceptor.new first a.me value a.file junk
  | .restore log junk => a.restore (logDump (logText log)) junk

/-- An acceptor that has read some log. -/
def lives : System Acceptor Member.Action where
  init := fun a => ∃ (me value : String) (records : List Record) (junk : Nat),
    (∀ record ∈ records, record.Readable) ∧
      Acceptor.new false me value (logText records) junk = some a
  step := Acceptor.live

/-- The first view is not logged over a log that has proposals but no decision. -/
def Acceptor.Clean (a : Acceptor) : Member.Action → Prop
  | .crash first _ _ => first = false ∨ a.file = [] ∨
      ∃ records, a.file = logText records ∧ (∀ record ∈ records, record.Readable) ∧
        ∃ record ∈ records, record.isDone = true
  | _ => True

/-- The acceptor has what its log says. -/
structure Acceptor.Kept (a : Acceptor) (records : List Record) : Prop where
  file : a.file = logText records
  readable : ∀ record ∈ records, record.Readable
  last : (∃ record ∈ records, record.isDone = true) → ∀ b : Acceptor,
    (records.foldl Acceptor.replay b).round = a.round ∧
      (records.foldl Acceptor.replay b).instanceH = a.instanceH
  value : ∀ inst v, .done inst v ∈ records → ∀ b : Acceptor,
    (records.foldl Acceptor.replay b).values inst = a.values inst

section Kept

variable {a next : Acceptor} {records : List Record}

/-- Whoever reads a log has what it says. -/
theorem Acceptor.kept_foldl_replay (b : Acceptor) (hfile : b.file = logText records)
    (hreadable : ∀ record ∈ records, record.Readable) :
    (records.foldl Acceptor.replay b).Kept records where
  file := by
    have hsame := Acceptor.foldl_replay_file records b b.file
    rw [hsame]
    exact hfile
  readable := hreadable
  last := fun hdone c => foldl_replay_of_done hdone c b
  value := fun _ _ hmem c => values_foldl_replay hmem c b

theorem Acceptor.Kept.append (h : a.Kept records) (record : Record) (hreadable : record.Readable)
    (hundecided : record.isDone = false) (hfile : next.file = a.file ++ record.text)
    (hround : next.round = (a.replay record).round) (hinst : next.instanceH = a.instanceH)
    (hvalues : next.values = a.values) : next.Kept (records ++ [record]) := by
  have hsame : ∀ b : Acceptor, (b.replay record).instanceH = b.instanceH ∧
      (b.replay record).values = b.values := by
    intro b
    cases record with
    | done inst v => cases hundecided
    | propseen nH => exact ⟨rfl, rfl⟩
    | accepted n v => exact ⟨rfl, rfl⟩
  constructor
  · rw [hfile, h.file, logText_append, logText_singleton]
  · exact List.forall_mem_append.mpr ⟨h.readable, List.forall_mem_singleton.mpr hreadable⟩
  · intro hdone b
    have hold : ∃ record ∈ records, record.isDone = true := by
      simpa [or_and_right, exists_or, hundecided] using hdone
    obtain ⟨hround', hinst'⟩ := h.last hold b
    simp only [List.foldl_append, List.foldl_cons, List.foldl_nil]
    rw [hround, hinst, (hsame _).1]
    exact ⟨Acceptor.round_replay hround' record, hinst'⟩
  · intro inst v hmem b
    have hold : .done inst v ∈ records := by
      rcases List.mem_append.mp hmem with hold | hnew
      · exact hold
      · rw [← List.mem_singleton.mp hnew] at hundecided
        cases hundecided
    simp only [List.foldl_append, List.foldl_cons, List.foldl_nil]
    rw [hvalues, (hsame _).2]
    exact h.value inst v hold b

theorem Acceptor.Kept.committed (h : a.Kept records) {inst : Nat} {v : String}
    (hreadable : (Record.done inst v).Readable) :
    (a.committed inst v).Kept (records ++ [.done inst v]) := by
  constructor
  · rw [logText_append, logText_singleton, ← h.file]
    rfl
  · exact List.forall_mem_append.mpr ⟨h.readable, List.forall_mem_singleton.mpr hreadable⟩
  · intro _ b
    rw [List.foldl_append]
    exact ⟨rfl, rfl⟩
  · intro other w hmem b
    simp only [List.foldl_append, List.foldl_cons, List.foldl_nil]
    by_cases hsame : other = inst
    · subst hsame
      simp [Acceptor.replay, Acceptor.committed, Acceptor.append]
    · have hold : .done other w ∈ records := by simpa [hsame] using hmem
      simpa [Acceptor.replay, Acceptor.committed, Acceptor.append, hsame] using
        h.value other w hold b

theorem Acceptor.Outcome.kept {req : Request} {res : Response} (houtcome : a.Outcome req next res)
    (h : a.Kept records) (hreq : req.Legible Config.OneLine) : ∃ records, next.Kept records := by
  cases houtcome with
  | oldinstance hinst => exact ⟨_, h⟩
  | @promised arg hinst hn => exact ⟨_, h.append (.propseen arg.n) hreq rfl rfl rfl rfl rfl⟩
  | rejected hinst hn => exact ⟨_, h⟩
  | @voted arg hn => exact ⟨_, h.append (.accepted arg.n arg.v) hreq rfl rfl rfl rfl rfl⟩
  | refused hn => exact ⟨_, h⟩
  | committed hinst hv => exact ⟨_, h.committed ⟨by omega, hreq.1, hreq.2⟩⟩
  | ignored => exact ⟨_, h⟩

theorem Acceptor.Kept.perform {op : Op} (h : a.Kept records) (hop : op.Legible)
    (hstep : a.perform op = some next) : ∃ records, next.Kept records := by
  cases op with
  | request req =>
      obtain ⟨⟨after, res⟩, hhandle, rfl⟩ := Option.map_eq_some_iff.mp hstep
      exact (handle_outcome hhandle).kept h hop
  | commit inst value =>
      cases hstep
      rcases Nat.lt_or_ge a.instanceH inst with hlt | hge
      · rw [Acceptor.commit, commitWo_of_lt hlt]
        exact ⟨_, h.committed ⟨by omega, hop.1, hop.2⟩⟩
      · rw [Acceptor.commit, commitWo_of_le hge]
        exact ⟨_, h⟩

/-- The constructor over a readable log. -/
theorem Acceptor.new_readable (hreadable : ∀ record ∈ records, record.Readable) (first : Bool)
    (me value : String) (junk : Nat) : Acceptor.new first me value (logText records) junk =
      some ((records.foldl Acceptor.replay (Acceptor.blank me (logText records))).logFirst
        first value) := by
  have hread : (Acceptor.blank me (logText records)).logread junk = _ :=
    logread_readable hreadable rfl junk
  rw [Acceptor.new, hread, Option.map_some]

/-- The constructor reads the log that the acceptor has left. -/
theorem Acceptor.Kept.crash (h : a.Kept records) {first : Bool} {value : String} {junk : Nat}
    (hvalue : Config.OneLine value) (hclean : a.Clean (.crash first value junk))
    (hnew : Acceptor.new first a.me value a.file junk = some next) :
    ∃ records, next.Kept records := by
  have hkept := Acceptor.kept_foldl_replay (Acceptor.blank a.me (logText records)) rfl h.readable
  rw [h.file, Acceptor.new_readable h.readable, Option.some.injEq] at hnew
  subst hnew
  rcases hclean with rfl | hempty | ⟨log, hfile, hreadable, hdone⟩
  · rw [logFirst_false]
    exact ⟨_, hkept⟩
  · obtain rfl := logText_eq_nil (h.file.symm.trans hempty)
    unfold Acceptor.logFirst
    split_ifs with hfirst
    · exact ⟨_, hkept.committed ⟨Nat.le_refl 1, by decide, hvalue⟩⟩
    · exact ⟨_, hkept⟩
  · -- both readings of the file end in the same decided instance
    have hsame : records.foldl Acceptor.replay (Acceptor.blank a.me (logText records)) =
        log.foldl Acceptor.replay (Acceptor.blank a.me (logText records)) := by
      have hread := logread_readable h.readable
        (a := Acceptor.blank a.me (logText records)) rfl junk
      have hread' := logread_readable hreadable
        (a := Acceptor.blank a.me (logText records)) (h.file.symm.trans hfile) junk
      exact Option.some.inj (hread.symm.trans hread')
    obtain ⟨inst, hlast, hpos⟩ := lastDone_of_done hdone hreadable
    have hinst : (records.foldl Acceptor.replay
        (Acceptor.blank a.me (logText records))).instanceH ≠ 0 := by
      rw [hsame, instanceH_foldl_replay, hlast, Option.getD_some]
      omega
    rw [logFirst, if_neg fun hand => hinst hand.1]
    exact ⟨_, hkept⟩

theorem Acceptor.Kept.live {action : Member.Action} (h : a.Kept records) (hlegible : action.Legible)
    (hclean : a.Clean action) (hstep : a.live action = some next) :
    ∃ records, next.Kept records := by
  cases action with
  | call op => exact h.perform hlegible hstep
  | crash first value junk => exact h.crash hlegible hclean hstep
  | restore log junk =>
      simp only [Acceptor.live] at hstep
      rw [logDump_readable hlegible, Acceptor.restore, logread_readable hlegible rfl,
        Option.some.injEq] at hstep
      subst hstep
      exact ⟨log, Acceptor.kept_foldl_replay _ rfl hlegible⟩

end Kept

/-! ### Shipping -/

/-- What the acceptor that has restored the log of `a` has of it. -/
structure Acceptor.Reproduces (a : Acceptor) (records : List Record) (b : Acceptor) : Prop where
  instanceH : b.instanceH = a.instanceH
  vA : b.vA = a.vA
  nH : b.nH.n = a.nH.n
  nA : b.nA.n = a.nA.n
  value : ∀ inst v, .done inst v ∈ records → b.value inst = a.value inst
  members : ∀ inst v m, .done inst v ∈ records → (∀ member ∈ m, IsWord member) →
    a.value inst = Config.value m → Config.members (b.value inst) = m

/-- The log consists of records, and if it has a `done` record, every acceptor that restores it
    reproduces what `a` has. -/
def Acceptor.Ships (a : Acceptor) : Prop :=
  ∃ records : List Record, a.file = logText records ∧ (∀ record ∈ records, record.Readable) ∧
    ((∃ record ∈ records, record.isDone = true) → ∀ (b : Acceptor) (junk : Nat),
      ∃ next, b.restore a.dump junk = some next ∧ a.Reproduces records next)

theorem Acceptor.Kept.ships {a : Acceptor} {records : List Record} (h : a.Kept records) :
    a.Ships := by
  refine ⟨records, h.file, h.readable, fun hdone b junk => ?_⟩
  have hdump : a.dump = logText records := by
    rw [Acceptor.dump, h.file, logDump_readable h.readable]
  refine ⟨records.foldl Acceptor.replay { b with file := logText records }, ?_, ?_⟩
  · rw [hdump, Acceptor.restore, logread_readable h.readable rfl]
  · obtain ⟨hround, hinst⟩ := h.last hdone { b with file := logText records }
    have hvalue : ∀ inst v, .done inst v ∈ records →
        (records.foldl Acceptor.replay { b with file := logText records }).value inst =
          a.value inst := by
      intro inst v hmem
      unfold Acceptor.value
      rw [h.value inst v hmem]
    refine ⟨hinst, Acceptor.vA_of_round hround, Acceptor.nH_n_of_round hround,
      Acceptor.nA_n_of_round hround, hvalue, ?_⟩
    intro inst v m hmem hm hproposed
    rw [hvalue inst v hmem, hproposed]
    exact Config.members_value hm

/-- **Log shipping reproduces the views**, for every acceptor that has not logged the first view
    over a log of proposals. -/
theorem restore_reproduces {a : Acceptor}
    (h : lives.Reach (fun state action => action.Legible ∧ state.Clean action) a) : a.Ships := by
  have hkept : ∃ records, a.Kept records := by
    apply h.invariant (P := fun a => ∃ records, a.Kept records)
    · rintro start ⟨me, value, records, junk, hreadable, hnew⟩
      rw [Acceptor.new_readable hreadable, Acceptor.logFirst_false, Option.some.injEq] at hnew
      subst hnew
      exact ⟨records, Acceptor.kept_foldl_replay _ rfl hreadable⟩
    · rintro state next action ⟨records, hstate⟩ ⟨hlegible, hclean⟩ hstep
      exact hstate.live hlegible hclean hstep
  obtain ⟨records, hkept⟩ := hkept
  exact hkept.ships

/-! Node `a` starts over an empty log. -/

theorem blank_init : lives.init (Acceptor.blank "a" []) := by
  refine ⟨"a", "", [], 0, by simp, ?_⟩
  rw [Acceptor.new_readable (by simp), Acceptor.logFirst_false]
  rfl

theorem legible_crash (junk : Nat) : (Member.Action.crash true "a " junk).Legible := by
  show '\n' ∉ "a ".toList
  decide

/-- As the first node it logs the first view, and then accepts a value for the second one. -/
theorem restore_reproduces_firstViews :
    ∃ a, lives.Reach (fun state action => action.Legible ∧ state.Clean action) a ∧
      a.file = logText [.done 1 "a ", .accepted ⟨1, "b"⟩ "a b "] ∧ a.Ships := by
  have hfirst : lives.Reach (fun state action => action.Legible ∧ state.Clean action)
      ((Acceptor.blank "a" []).logFirst true "a ") :=
    (System.Reach.init blank_init).step ⟨legible_crash 0, .inr (.inl rfl)⟩
      (@Acceptor.new_readable [] (by simp) true "a" "a " 0)
  have haccept : (Member.Action.call (.request (.accept ⟨2, ⟨1, "b"⟩, "a b "⟩))).Legible := by
    refine ⟨by decide, by decide, ?_⟩
    show '\n' ∉ "a b ".toList
    decide
  have hreach := hfirst.step ⟨haccept, trivial⟩ rfl
  exact ⟨_, hreach, by decide, restore_reproduces hreach⟩

/-- It grants a prepare request and is then restarted as the first node.  It still has the
    proposal number, and an acceptor that restores its log has none. -/
theorem shipped_log_loses_proposal :
    ∃ a b next : Acceptor, lives.Reach (fun _ action => action.Legible) a ∧
      a.file = logText [.propseen ⟨1, "b"⟩, .done 1 "a "] ∧ b.restore a.dump 0 = some next ∧
      next.nH.n ≠ a.nH.n := by
  have hreadable : ∀ record ∈ [Record.propseen ⟨1, "b"⟩], record.Readable :=
    List.forall_mem_singleton.mpr ⟨by decide, by decide⟩
  have hprepare : (Member.Action.call (.request (.prepare ⟨1, ⟨1, "b"⟩⟩))).Legible :=
    ⟨by decide, by decide⟩
  have hgranted : lives.Reach (fun _ action => action.Legible)
      ((Acceptor.blank "a" []).preparereq ⟨1, ⟨1, "b"⟩⟩).1 :=
    (System.Reach.init blank_init).step hprepare rfl
  obtain ⟨a, hcrash, hview⟩ : ∃ a, lives.step ((Acceptor.blank "a" []).preparereq ⟨1, ⟨1, "b"⟩⟩).1
      (.crash true "a " 0) = some a ∧
        (a.file, a.nH.n) = (logText [.propseen ⟨1, "b"⟩, .done 1 "a "], 1) :=
    ⟨_, Acceptor.new_readable hreadable true "a" "a " 0, by decide⟩
  obtain ⟨hfile, hnH⟩ := Prod.mk.inj hview
  obtain ⟨next, hrestore, hcleared⟩ : ∃ next,
      (Acceptor.blank "c" []).restore (logDump (logText [.propseen ⟨1, "b"⟩, .done 1 "a "])) 0 =
        some next ∧ next.nH.n = 0 :=
    Option.map_eq_some_iff.mp (by decide +kernel)
  refine ⟨a, Acceptor.blank "c" [], next, hgranted.step (legible_crash 0) hcrash, hfile, ?_, ?_⟩
  · rw [Acceptor.dump, hfile, hrestore]
  · rw [hcleared, hnH]
    decide

end DistributedLab.Paxos
