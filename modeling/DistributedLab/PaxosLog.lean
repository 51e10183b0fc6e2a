import DistributedLab.PaxosAcceptor
import DistributedLab.TextStream

/-!
# The log file

`class log` of `log.cc`: `logread` interprets the file record by record into an
existing acceptor, `dump` and `restore` copy a whole file, and the acceptor's
constructor replays its own file before it may log the first view.

`logread` mixes `>>` with `get` and `getline`, so the readers of `TextStream` are
kept in the order in which the source calls them.  On a file that consists of
well-formed records the whole reader is a fold of `Record.replay` over them.
-/

namespace DistributedLab.Paxos

open TextStream

/-! ### Reading the log -/

/-- One iteration of the loop of `logread`, after `from >> type`.  The local variable
    `instance` lives outside the loop and is not initialised: `inst` is what it holds. -/
def Acceptor.readRecord (a : Acceptor) (type : String) (inst : Nat) (from' : IStream) :
    Option (Acceptor × Nat × IStream) :=
  if type = "done" then
    let number := from'.readUnsigned unsignedBound inst
    let line := number.2.get.getline ""
    some ({ a with
      values := Function.update a.values number.1 (some line.1)
      instanceH := number.1
      vA := ""
      nH := ⟨0, a.nH.m⟩
      nA := ⟨0, a.nA.m⟩ }, number.1, line.2)
  else if type = "propseen" then
    let number := from'.readUnsigned unsignedBound a.nH.n
    let name := number.2.readString a.nH.m
    some ({ a with nH := ⟨number.1, name.1⟩ }, inst, name.2)
  else if type = "accepted" then
    let number := from'.readUnsigned unsignedBound a.nA.n
    let name := number.2.readString a.nA.m
    let line := name.2.get.getline ""
    some ({ a with nA := ⟨number.1, name.1⟩, vA := line.1 }, inst, line.2)
  else
    -- VERIFY(0): unknown log record
    none

/-- The loop `while (from >> type)`.  Every iteration takes at least one character, so
    the length of the text bounds their number. -/
def Acceptor.logreadLoop : Nat → Acceptor → String → Nat → IStream → Option Acceptor
  | 0, _, _, _, _ => none
  | fuel + 1, a, type, inst, from' =>
      let word := from'.readString type
      if word.2.fail then some a
      else
        (a.readRecord word.1 inst word.2).bind fun next =>
          next.1.logreadLoop fuel word.1 next.2.1 next.2.2

/-- `logread`, with `junk` the uninitialised value of `instance`.  A file that cannot be
    opened reads like an empty one. -/
def Acceptor.logread (a : Acceptor) (junk : Nat) : Option Acceptor :=
  a.logreadLoop (a.file.length + 1) "" junk (.on a.file)

/-- The loop of `dump`. -/
def dumpLoop : Nat → String → IStream → List Char
  | 0, _, _ => []
  | fuel + 1, v, from' =>
      let line := from'.getline v
      if line.2.fail then [] else line.1.toList ++ '\n' :: dumpLoop fuel line.1 line.2

/-- `log::dump` of a file. -/
def logDump (file : List Char) : List Char := dumpLoop (file.length + 1) "" (.on file)

def Acceptor.dump (a : Acceptor) : List Char := logDump a.file

/-- `acceptor::restore`: the file is replaced, the fields in memory are not cleared. -/
def Acceptor.restore (a : Acceptor) (s : List Char) (junk : Nat) : Option Acceptor :=
  ({ a with file := s }).logread junk

/-- The branch of the constructor that logs the first view. -/
def Acceptor.logFirst (a : Acceptor) (first : Bool) (value : String) : Acceptor :=
  if a.instanceH = 0 ∧ first = true then
    ({ a with values := Function.update a.values 1 (some value), instanceH := 1 }).append
      (.done 1 value)
  else a

/-- The constructor of `class acceptor` over an existing log file. -/
def Acceptor.new (first : Bool) (me value : String) (file : List Char) (junk : Nat) :
    Option Acceptor :=
  ((Acceptor.blank me file).logread junk).map fun a => a.logFirst first value

/-! ### Well-formed records -/

/-- What the writers can be asked to log and the reader can read back: numbers of type
    `unsigned`, node names without blanks, values on one line. -/
def Record.WF : Record → Prop
  | .done inst v => 1 ≤ inst ∧ inst < unsignedBound ∧ '\n' ∉ v.toList
  | .propseen nH => 1 ≤ nH.n ∧ nH.n < unsignedBound ∧ IsWord nH.m
  | .accepted n v => 1 ≤ n.n ∧ n.n < unsignedBound ∧ IsWord n.m ∧ '\n' ∉ v.toList

instance : DecidablePred Record.WF
  | .done _ _ => inferInstanceAs (Decidable (_ ∧ _))
  | .propseen _ => inferInstanceAs (Decidable (_ ∧ _))
  | .accepted _ _ => inferInstanceAs (Decidable (_ ∧ _))

theorem Record.wf_append {records : List Record} {record : Record}
    (hrecords : ∀ r ∈ records, r.WF) (hwf : record.WF) : ∀ r ∈ records ++ [record], r.WF :=
  List.forall_mem_append.mpr ⟨hrecords, List.forall_mem_singleton.mpr hwf⟩

/-- What the reader reads back: as `WF`, but with round number 0, which `setn` takes when its
    counter wraps around. -/
def Record.Readable : Record → Prop
  | .done inst v => 1 ≤ inst ∧ inst < unsignedBound ∧ '\n' ∉ v.toList
  | .propseen nH => nH.n < unsignedBound ∧ IsWord nH.m
  | .accepted n v => n.n < unsignedBound ∧ IsWord n.m ∧ '\n' ∉ v.toList

theorem Record.WF.readable {record : Record} (h : record.WF) : record.Readable := by
  cases record with
  | done inst v => exact h
  | propseen nH => exact h.2
  | accepted n v => exact h.2

/-- What is written on one line that can be read back: as `Readable`, but with any instance. -/
def Record.Legible : Record → Prop
  | .done inst v => inst < unsignedBound ∧ '\n' ∉ v.toList
  | .propseen nH => nH.n < unsignedBound ∧ IsWord nH.m
  | .accepted n v => n.n < unsignedBound ∧ IsWord n.m ∧ '\n' ∉ v.toList

instance : DecidablePred Record.Legible
  | .done _ _ => inferInstanceAs (Decidable (_ ∧ _))
  | .propseen _ => inferInstanceAs (Decidable (_ ∧ _))
  | .accepted _ _ => inferInstanceAs (Decidable (_ ∧ _))

theorem Record.Readable.legible {record : Record} (h : record.Readable) : record.Legible := by
  cases record with
  | done inst v => exact h.2
  | propseen nH => exact h
  | accepted n v => exact h

/-- What reading one record does to the acceptor. -/
def Acceptor.replay (a : Acceptor) : Record → Acceptor
  | .done inst v =>
      { a with
        values := Function.update a.values inst (some v)
        instanceH := inst
        vA := ""
        nH := ⟨0, a.nH.m⟩
        nA := ⟨0, a.nA.m⟩ }
  | .propseen nH => { a with nH := nH }
  | .accepted n v => { a with nA := n, vA := v }

/-- What the local variable `instance` of `logread` holds after a record. -/
def Record.inst (old : Nat) : Record → Nat
  | .done inst _ => inst
  | _ => old

/-- The tag of a record. -/
def Record.tag : Record → String
  | .done _ _ => "done"
  | .propseen _ => "propseen"
  | .accepted _ _ => "accepted"

/-- The rest of its line. -/
def Record.fields : Record → List Char
  | .done inst v => Nat.toDigits 10 inst ++ ' ' :: v.toList
  | .propseen nH => Nat.toDigits 10 nH.n ++ ' ' :: nH.m.toList
  | .accepted n v => Nat.toDigits 10 n.n ++ ' ' :: (n.m.toList ++ ' ' :: v.toList)

theorem Record.text_eq (record : Record) :
    record.text = record.tag.toList ++ ' ' :: (record.fields ++ ['\n']) := by
  cases record with
  | done inst v =>
      exact congrArg (fun line => "done".toList ++ ' ' :: line) (by simp [fields])
  | propseen nH =>
      exact congrArg (fun line => "propseen".toList ++ ' ' :: line) (by simp [fields])
  | accepted n v =>
      exact congrArg (fun line => "accepted".toList ++ ' ' :: line) (by simp [fields])

theorem Record.isWord_tag (record : Record) : IsWord record.tag := by
  cases record with
  | done inst v => exact (by decide : IsWord "done")
  | propseen nH => exact (by decide : IsWord "propseen")
  | accepted n v => exact (by decide : IsWord "accepted")

theorem logText_eq_nil {records : List Record} (h : logText records = []) : records = [] := by
  cases records with
  | nil => rfl
  | cons record records =>
      rw [logText, List.flatMap_cons, record.text_eq] at h
      simp [record.isWord_tag.1] at h

/-! ### Replay of a well-formed log -/

/-- What `readRecord` leaves of a record: `propseen` stops before its newline, the other two
    take it. -/
def Record.leftover : Record → List Char
  | .propseen _ => ['\n']
  | _ => []

theorem Record.isSpace_leftover (record : Record) : ∀ c ∈ record.leftover, isSpace c = true := by
  cases record with
  | propseen nH => simp [Record.leftover, isSpace]
  | done inst v => simp [Record.leftover]
  | accepted n v => simp [Record.leftover]

/-- Reading the fields of a record replays it. -/
theorem Acceptor.readRecord_fields (a : Acceptor) {record : Record} (h : record.Legible)
    (inst : Nat) (rest : List Char) :
    a.readRecord record.tag inst (.on (' ' :: (record.fields ++ '\n' :: rest))) =
      some (a.replay record, record.inst inst, .on (record.leftover ++ rest)) := by
  have hblank : isSpace ' ' = true := by decide
  have hdigit : ' '.isDigit = false := by decide
  cases record with
  | done number v =>
      obtain ⟨hnumber, hv⟩ := h
      simp only [Record.tag, Record.fields, Record.leftover, List.append_assoc, List.cons_append,
        List.nil_append, readRecord, if_true,
        IStream.readUnsigned_toDigits hblank hnumber hdigit, IStream.get_cons,
        IStream.getline_line hv, replay, Record.inst]
  | propseen nH =>
      obtain ⟨hnumber, hname⟩ := h
      have hnewline : isSpace '\n' = true := by decide
      have htag : ¬("propseen" = "done") := by decide
      simp only [Record.tag, Record.fields, Record.leftover, List.append_assoc, List.cons_append,
        List.nil_append, readRecord, if_true, if_neg htag,
        IStream.readUnsigned_toDigits hblank hnumber hdigit,
        IStream.readString_cons_word hblank hname hnewline, replay, Record.inst]
  | accepted n v =>
      obtain ⟨hnumber, hname, hv⟩ := h
      have htag : ¬("accepted" = "done") := by decide
      have htag' : ¬("accepted" = "propseen") := by decide
      simp only [Record.tag, Record.fields, Record.leftover, List.append_assoc, List.cons_append,
        List.nil_append, readRecord, if_true, if_neg htag, if_neg htag',
        IStream.readUnsigned_toDigits hblank hnumber hdigit,
        IStream.readString_cons_word hblank hname hblank, IStream.get_cons,
        IStream.getline_line hv, replay, Record.inst]

/-- The loop replays the records at the front of a text one after the other.  The induction also
    carries the newline that a `propseen` record leaves behind. -/
theorem Acceptor.logreadLoop_append {records : List Record}
    (hrecords : ∀ record ∈ records, record.Legible) (rest : List Char) :
    ∀ {fuel : Nat} (a : Acceptor) (type : String) (inst : Nat) {blanks : List Char},
      (∀ c ∈ blanks, isSpace c = true) → (logText records ++ rest).length < fuel →
      ∃ fuel' type' blanks', rest.length < fuel' ∧ (∀ c ∈ blanks', isSpace c = true) ∧
        a.logreadLoop fuel type inst (.on (blanks ++ (logText records ++ rest))) =
          (records.foldl Acceptor.replay a).logreadLoop fuel' type'
            (records.foldl Record.inst inst) (.on (blanks' ++ rest)) := by
  induction records with
  | nil =>
      intro fuel a type inst blanks hblanks hfuel
      exact ⟨fuel, type, blanks, hfuel, hblanks, rfl⟩
  | cons record records ih =>
      intro fuel a type inst blanks hblanks hfuel
      obtain ⟨fuel, rfl⟩ := Nat.exists_eq_succ_of_ne_zero (Nat.ne_zero_of_lt hfuel)
      have htext : logText (record :: records) ++ rest =
          record.tag.toList ++ ' ' :: (record.fields ++ '\n' :: (logText records ++ rest)) := by
        rw [logText, List.flatMap_cons, Record.text_eq]
        simp [logText]
      have hread := a.readRecord_fields (hrecords record List.mem_cons_self) inst
        (logText records ++ rest)
      have hshorter : (logText records ++ rest).length < fuel := by
        rw [htext] at hfuel
        simp only [List.length_append, List.length_cons] at hfuel ⊢
        omega
      rw [logreadLoop, htext,
        IStream.readString_word hblanks record.isWord_tag (by decide : isSpace ' ' = true)]
      simp only [IStream.fail_on, Bool.false_eq_true, if_false, hread, Option.bind_some,
        List.foldl_cons]
      exact ih (fun r hr => hrecords r (List.mem_cons_of_mem _ hr)) (a.replay record) record.tag
        (record.inst inst) record.isSpace_leftover hshorter

theorem Acceptor.logreadLoop_blanks {blanks : List Char} (hblanks : ∀ c ∈ blanks, isSpace c = true)
    {fuel : Nat} (hfuel : 0 < fuel) (a : Acceptor) (type : String) (inst : Nat) :
    a.logreadLoop fuel type inst (.on blanks) = some a := by
  obtain ⟨fuel, rfl⟩ := Nat.exists_eq_succ_of_ne_zero (Nat.ne_zero_of_lt hfuel)
  simp [logreadLoop, IStream.readString_blanks hblanks]

/-- **`logread` on whole records.** -/
theorem Acceptor.logread_legible {records : List Record}
    (hrecords : ∀ record ∈ records, record.Legible) {a : Acceptor}
    (hfile : a.file = logText records) (junk : Nat) :
    a.logread junk = some (records.foldl Acceptor.replay a) := by
  obtain ⟨fuel, type, blanks, hfuel, hblanks, hloop⟩ := Acceptor.logreadLoop_append hrecords [] a ""
    junk (List.forall_mem_nil _) (Nat.lt_succ_self _)
  rw [List.append_nil, List.nil_append, List.append_nil] at hloop
  rw [logread, hfile, hloop]
  exact logreadLoop_blanks hblanks hfuel _ _ _

theorem Acceptor.logread_readable {records : List Record}
    (hrecords : ∀ record ∈ records, record.Readable) {a : Acceptor}
    (hfile : a.file = logText records) (junk : Nat) :
    a.logread junk = some (records.foldl Acceptor.replay a) :=
  logread_legible (fun record hrecord => (hrecords record hrecord).legible) hfile junk

theorem Acceptor.logread_logText {records : List Record} (hwf : ∀ record ∈ records, record.WF)
    {a : Acceptor} (hfile : a.file = logText records) (junk : Nat) :
    a.logread junk = some (records.foldl Acceptor.replay a) :=
  logread_readable (fun record hrecord => (hwf record hrecord).readable) hfile junk

/-! ### Copies of a well-formed log -/

theorem newline_not_mem_toDigits (n : Nat) : '\n' ∉ Nat.toDigits 10 n := by
  intro hmem
  exact absurd (Nat.isDigit_of_mem_toDigits (by decide) (by decide) hmem) (by decide)

theorem newline_not_mem_of_isWord {word : String} (hword : IsWord word) : '\n' ∉ word.toList := by
  intro hmem
  exact absurd (hword.2 '\n' hmem) (by decide)

theorem Record.newline_not_mem_fields {record : Record} (h : record.Readable) :
    '\n' ∉ record.fields := by
  cases record with
  | done inst v => simp [fields, newline_not_mem_toDigits, h.2.2]
  | propseen nH => simp [fields, newline_not_mem_toDigits, newline_not_mem_of_isWord h.2]
  | accepted n v =>
      simp [fields, newline_not_mem_toDigits, newline_not_mem_of_isWord h.2.1, h.2.2]

/-- A readable record is one line of text. -/
theorem Record.text_eq_line {record : Record} (h : record.Readable) :
    ∃ line : String, '\n' ∉ line.toList ∧ record.text = line.toList ++ ['\n'] := by
  refine ⟨String.ofList (record.tag.toList ++ ' ' :: record.fields), ?_, ?_⟩
  · simp [newline_not_mem_of_isWord record.isWord_tag, newline_not_mem_fields h]
  · simp [record.text_eq]

theorem dumpLoop_logText {records : List Record}
    (hrecords : ∀ record ∈ records, record.Readable) :
    ∀ {fuel : Nat} (v : String), (logText records).length < fuel →
      dumpLoop fuel v (.on (logText records)) = logText records := by
  induction records with
  | nil =>
      intro fuel v hfuel
      obtain ⟨fuel, rfl⟩ := Nat.exists_eq_succ_of_ne_zero (Nat.ne_zero_of_lt hfuel)
      rfl
  | cons record records ih =>
      intro fuel v hfuel
      obtain ⟨fuel, rfl⟩ := Nat.exists_eq_succ_of_ne_zero (Nat.ne_zero_of_lt hfuel)
      obtain ⟨line, hline, htext⟩ := Record.text_eq_line (hrecords record List.mem_cons_self)
      have hcons : logText (record :: records) = line.toList ++ '\n' :: logText records := by
        rw [logText, List.flatMap_cons, htext]
        simp [logText]
      have hshorter : (logText records).length < fuel := by
        rw [hcons] at hfuel
        simp only [List.length_append, List.length_cons] at hfuel
        omega
      rw [hcons, dumpLoop, IStream.getline_line hline]
      simp only [IStream.fail_on, Bool.false_eq_true, if_false,
        ih (fun r hr => hrecords r (List.mem_cons_of_mem _ hr)) line hshorter]

/-- `dump` returns a readable log as it is. -/
theorem logDump_readable {records : List Record}
    (hrecords : ∀ record ∈ records, record.Readable) :
    logDump (logText records) = logText records :=
  dumpLoop_logText hrecords "" (Nat.lt_succ_self _)

theorem logDump_logText {records : List Record} (hwf : ∀ record ∈ records, record.WF) :
    logDump (logText records) = logText records :=
  logDump_readable fun record hrecord => (hwf record hrecord).readable

end DistributedLab.Paxos
