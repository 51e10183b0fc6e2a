import DistributedLab.PaxosReplay

/-!
# A crash while a record is appended

The writers of the log put out a record piece by piece, so a crash leaves the whole records
before it and any part of the last one.  `logread` stops at a part of a tag, which is no known
record.  Behind a whole tag it takes what it gets: a number or a name that breaks off is read as
a shorter one, a missing one keeps what was there before, and a missing value is the empty one.

So what is left of the last record is read as another record, its remnant, and the crash goes
unnoticed exactly if the acceptor already has what the remnant says.
-/

namespace DistributedLab.Paxos

open TextStream

/-! ### The records before the cut -/

/-- The records that are whole in the first `k` characters of a log. -/
def wholeRecords : List Record → Nat → List Record
  | [], _ => []
  | record :: records, k =>
      if record.text.length ≤ k then record :: wholeRecords records (k - record.text.length)
      else []

/-- The record behind them, with the number of its characters that are left. -/
def cutRecord : List Record → Nat → Option (Record × Nat)
  | [], _ => none
  | record :: records, k =>
      if record.text.length ≤ k then cutRecord records (k - record.text.length)
      else some (record, k)

theorem take_logText (records : List Record) (k : Nat) :
    (logText records).take k = logText (wholeRecords records k) ++
      ((cutRecord records k).elim [] fun cut => cut.1.text.take cut.2) := by
  induction records generalizing k with
  | nil => simp [wholeRecords, cutRecord, logText]
  | cons record records ih =>
      simp only [wholeRecords, cutRecord]
      split_ifs with hwhole
      · have hcons : logText (record :: records) = record.text ++ logText records := rfl
        rw [hcons, List.take_append, List.take_of_length_le hwhole, ih]
        simp [logText]
      · have hcons : logText (record :: records) = record.text ++ logText records := rfl
        rw [hcons, List.take_append_of_le_length (by omega)]
        simp [logText]

theorem mem_of_mem_wholeRecords {records : List Record} {k : Nat} {record : Record}
    (h : record ∈ wholeRecords records k) : record ∈ records := by
  induction records generalizing k with
  | nil => cases h
  | cons first records ih =>
      simp only [wholeRecords] at h
      split_ifs at h
      · rcases List.mem_cons.mp h with rfl | hrest
        · exact List.mem_cons_self
        · exact List.mem_cons_of_mem _ (ih hrest)
      · cases h

theorem cutRecord_eq_some {records : List Record} {k left : Nat} {record : Record}
    (h : cutRecord records k = some (record, left)) :
    record ∈ records ∧ left < record.text.length := by
  induction records generalizing k with
  | nil => cases h
  | cons first records ih =>
      simp only [cutRecord] at h
      split_ifs at h with hwhole
      · obtain ⟨hmem, hlt⟩ := ih h
        exact ⟨List.mem_cons_of_mem _ hmem, hlt⟩
      · cases h
        exact ⟨List.mem_cons_self, by omega⟩

/-! ### What is left of a record -/

/-- The record as which `logread` takes the first `left` characters of the fields behind a tag. -/
def Acceptor.remnant (a : Acceptor) (inst left : Nat) : Record → Record
  | .done n v => .done (leftNumber n left inst) (leftLine v (left - ((Nat.toDigits 10 n).length + 1)))
  | .propseen nH =>
      .propseen ⟨leftNumber nH.n left a.nH.n,
        leftWord nH.m (left - ((Nat.toDigits 10 nH.n).length + 1)) a.nH.m⟩
  | .accepted n v =>
      let behind := left - ((Nat.toDigits 10 n.n).length + 1)
      .accepted ⟨leftNumber n.n left a.nA.n, leftWord n.m behind a.nA.m⟩
        (leftLine v (behind - (n.m.toList.length + 1)))

section Cut

variable {a : Acceptor} {record : Record} {inst left : Nat}

theorem Acceptor.readRecord_cut {s : IStream} (h : record.Legible)
    (hs : IStream.Remains record.fields left s) :
    ∃ inst' s', a.readRecord record.tag inst s =
      some (a.replay (a.remnant inst left record), inst', s') ∧ s'.good = false := by
  cases record with
  | done n v =>
      obtain ⟨hnumber, hv⟩ := h
      obtain ⟨hn, hmore⟩ := hs.readUnsigned hnumber inst
      obtain ⟨hvalue, hended⟩ := hmore.getline hv
      refine ⟨leftNumber n left inst, _, ?_, hended⟩
      simp only [Record.tag, readRecord, if_true, hn, hvalue]
      rfl
  | propseen nH =>
      obtain ⟨hnumber, hname⟩ := h
      obtain ⟨hn, hmore⟩ := hs.readUnsigned hnumber a.nH.n
      obtain ⟨hm, hended⟩ := hmore.readString_last hname a.nH.m
      have htag : ¬("propseen" = "done") := by decide
      refine ⟨inst, _, ?_, hended⟩
      simp only [Record.tag, readRecord, if_true, if_neg htag, hn, hm]
      rfl
  | accepted n v =>
      obtain ⟨hnumber, hname, hv⟩ := h
      obtain ⟨hn, hbehind⟩ := hs.readUnsigned hnumber a.nA.n
      obtain ⟨hm, hmore⟩ := hbehind.readString hname a.nA.m
      obtain ⟨hvalue, hended⟩ := hmore.getline hv
      have htag : ¬("accepted" = "done") := by decide
      have htag' : ¬("accepted" = "propseen") := by decide
      refine ⟨inst, _, ?_, hended⟩
      simp only [Record.tag, readRecord, if_true, if_neg htag, if_neg htag', hn, hm, hvalue]
      rfl

/-- A part of a tag is no tag. -/
theorem Acceptor.readRecord_part (hleft : left < record.tag.toList.length) (s : IStream) :
    a.readRecord (String.ofList (record.tag.toList.take left)) inst s = none := by
  have hparts : ∀ tag ∈ ["done", "propseen", "accepted"], ∀ left < tag.toList.length,
      String.ofList (tag.toList.take left) ≠ "done" ∧
        String.ofList (tag.toList.take left) ≠ "propseen" ∧
        String.ofList (tag.toList.take left) ≠ "accepted" := by
    decide
  have htag : record.tag ∈ ["done", "propseen", "accepted"] := by
    cases record <;> simp [Record.tag]
  obtain ⟨hdone, hpropseen, haccepted⟩ := hparts record.tag htag left hleft
  rw [readRecord, if_neg hdone, if_neg hpropseen, if_neg haccepted]

/-- The text of a record breaks off within its tag or behind it. -/
theorem Record.take_text (record : Record) (hleft : left < record.text.length) :
    record.text.take left =
      if left ≤ record.tag.toList.length then record.tag.toList.take left
      else record.tag.toList ++
        ' ' :: record.fields.take (left - (record.tag.toList.length + 1)) := by
  have htext : record.text = record.tag.toList ++ ' ' :: record.fields ++ ['\n'] := by
    simp [record.text_eq]
  rw [htext] at hleft ⊢
  rw [List.length_append, List.length_singleton] at hleft
  rw [List.take_append_of_le_length (by omega), take_append_cons]

theorem Acceptor.logreadLoop_ended {s : IStream} (h : s.good = false) {fuel : Nat}
    (hfuel : 0 < fuel) (a : Acceptor) (type : String) (inst : Nat) :
    a.logreadLoop fuel type inst s = some a := by
  obtain ⟨fuel, rfl⟩ := Nat.exists_eq_succ_of_ne_zero (Nat.ne_zero_of_lt hfuel)
  simp [logreadLoop, IStream.readString_ended h]

/-- The loop on what is left of a record, behind the blanks that the one before has left. -/
theorem Acceptor.logreadLoop_cut (h : record.Legible) (hpos : left ≠ 0)
    (hleft : left < record.text.length) {blanks : List Char}
    (hblanks : ∀ c ∈ blanks, isSpace c = true) {fuel : Nat} (hfuel : left < fuel) (type : String) :
    a.logreadLoop fuel type inst (.on (blanks ++ record.text.take left)) =
      if record.tag.toList.length ≤ left then
        some (a.replay (a.remnant inst (left - (record.tag.toList.length + 1)) record))
      else none := by
  obtain ⟨fuel, rfl⟩ := Nat.exists_eq_succ_of_ne_zero (Nat.ne_zero_of_lt hfuel)
  have htag := record.isWord_tag
  -- one record is read, and then the end is reached
  have hremains : ∀ {s : IStream}, s.fail = false →
      IStream.Remains record.fields (left - (record.tag.toList.length + 1)) s →
      (IStream.on (blanks ++ record.text.take left)).readString type = (record.tag, s) →
      a.logreadLoop (fuel + 1) type inst (.on (blanks ++ record.text.take left)) =
        some (a.replay (a.remnant inst (left - (record.tag.toList.length + 1)) record)) := by
    intro s hgood hs hword
    obtain ⟨inst', s', hread, hended⟩ := @Acceptor.readRecord_cut a record inst _ s h hs
    rw [logreadLoop, hword]
    simp only [hgood, Bool.false_eq_true, if_false, hread, Option.bind_some]
    exact logreadLoop_ended hended (by omega) _ _ _
  rw [record.take_text hleft] at hremains ⊢
  by_cases hle : left ≤ record.tag.toList.length
  · rw [if_pos hle] at hremains ⊢
    by_cases hall : left = record.tag.toList.length
    · rw [if_pos (by omega)]
      rw [hall, List.take_length] at hremains ⊢
      refine hremains rfl ?_ (IStream.readString_blanks_last hblanks htag)
      rw [Nat.sub_eq_zero_of_le (by omega)]
      exact .ended rfl
    · rw [if_neg (by omega)]
      have hpart : IsWord (String.ofList (record.tag.toList.take left)) := by
        apply htag.take
        simp [hpos, htag.1]
      have hword := @IStream.readString_blanks_last blanks _ type hblanks hpart
      rw [String.toList_ofList] at hword
      rw [logreadLoop, hword]
      simp [readRecord_part (by omega : left < record.tag.toList.length)]
  · rw [if_neg hle] at hremains ⊢
    rw [if_pos (by omega)]
    exact hremains rfl (.blank _) (IStream.readString_word hblanks htag (by decide))

end Cut

/-! ### The state after a crash -/

/-- The state of an acceptor that has read a file with this text. -/
def Acceptor.readText (a : Acceptor) (text : List Char) (junk : Nat) : Option Acceptor :=
  ({ a with file := text }).logread junk

/-- Two acceptors with the same fields.  A missing value reads as the empty one. -/
structure Acceptor.Same (a b : Acceptor) : Prop where
  me : a.me = b.me
  nH : a.nH = b.nH
  nA : a.nA = b.nA
  vA : a.vA = b.vA
  instanceH : a.instanceH = b.instanceH
  value : ∀ inst, a.value inst = b.value inst

/-- The first `k` characters of the log are read like the whole records among them. -/
def Acceptor.CrashAtomic (a : Acceptor) (records : List Record) (junk k : Nat) : Prop :=
  ∃ b c, a.readText ((logText records).take k) junk = some b ∧
    a.readText (logText (wholeRecords records k)) junk = some c ∧ b.Same c

/-- The acceptor has already what a record says. -/
def Acceptor.Has (a : Acceptor) : Record → Prop
  | .done inst v => a.instanceH = inst ∧ a.value inst = v ∧ a.vA = "" ∧ a.nH.n = 0 ∧ a.nA.n = 0
  | .propseen nH => a.nH = nH
  | .accepted n v => a.nA = n ∧ a.vA = v

instance (a : Acceptor) : DecidablePred a.Has
  | .done _ _ => inferInstanceAs (Decidable (_ ∧ _))
  | .propseen _ => inferInstanceAs (Decidable (_ = _))
  | .accepted _ _ => inferInstanceAs (Decidable (_ ∧ _))

/-- Nothing is left of the record that is cut, or its whole tag is, and the acceptor has already
    what the remnant says. -/
def Acceptor.Harmless (a : Acceptor) (records : List Record) (junk k : Nat) : Prop :=
  ∀ record left, cutRecord records k = some (record, left) → left = 0 ∨
    record.tag.toList.length ≤ left ∧
      ((wholeRecords records k).foldl Acceptor.replay a).Has
        (((wholeRecords records k).foldl Acceptor.replay a).remnant
          ((wholeRecords records k).foldl Record.inst junk)
          (left - (record.tag.toList.length + 1)) record)

theorem Acceptor.same_replay_iff (a : Acceptor) (record : Record) :
    (a.replay record).Same a ↔ a.Has record := by
  cases record with
  | done inst v =>
      constructor
      · intro h
        have hvalue := h.value inst
        simp only [Acceptor.value, replay, Function.update_self, Option.getD_some] at hvalue
        exact ⟨h.instanceH.symm, hvalue.symm, h.vA.symm, congrArg PropT.n h.nH.symm,
          congrArg PropT.n h.nA.symm⟩
      · rintro ⟨hinst, hvalue, hvA, hnH, hnA⟩
        refine ⟨rfl, ?_, ?_, hvA.symm, hinst.symm, fun other => ?_⟩
        · show PropT.mk 0 a.nH.m = a.nH
          rw [← hnH]
        · show PropT.mk 0 a.nA.m = a.nA
          rw [← hnA]
        · by_cases hother : other = inst
          · subst hother
            simpa [Acceptor.value, replay] using hvalue.symm
          · simp [Acceptor.value, replay, hother]
  | propseen nH =>
      constructor
      · intro h
        exact h.nH.symm
      · intro h
        exact ⟨rfl, Eq.symm h, rfl, rfl, rfl, fun _ => rfl⟩
  | accepted n v =>
      constructor
      · intro h
        exact ⟨h.nA.symm, h.vA.symm⟩
      · rintro ⟨hnA, hvA⟩
        exact ⟨rfl, rfl, hnA.symm, hvA.symm, rfl, fun _ => rfl⟩

/-! The file itself is not among the fields that count. -/

theorem Acceptor.same_file (a b : Acceptor) (file : List Char) :
    a.Same { b with file := file } ↔ a.Same b := by
  constructor
  · intro h
    exact ⟨h.me, h.nH, h.nA, h.vA, h.instanceH, h.value⟩
  · intro h
    exact ⟨h.me, h.nH, h.nA, h.vA, h.instanceH, h.value⟩

theorem Acceptor.has_file (a : Acceptor) (file : List Char) (record : Record) :
    ({ a with file := file } : Acceptor).Has record ↔ a.Has record := by
  cases record <;> exact Iff.rfl

theorem Acceptor.remnant_file (a : Acceptor) (file : List Char) (inst left : Nat)
    (record : Record) : ({ a with file := file } : Acceptor).remnant inst left record =
      a.remnant inst left record := by
  cases record <;> rfl

theorem Acceptor.same_remnant_iff (a : Acceptor) (file file' : List Char) (inst left : Nat)
    (record : Record) :
    (({ a with file := file } : Acceptor).replay
      (({ a with file := file } : Acceptor).remnant inst left record)).Same
        { a with file := file' } ↔ a.Has (a.remnant inst left record) := by
  rw [same_file, ← same_file _ _ file, same_replay_iff, has_file, remnant_file]

section Crash

variable {records : List Record} {a : Acceptor} {junk k : Nat}

/-- Reading the whole records. -/
theorem Acceptor.readText_wholeRecords (hrecords : ∀ record ∈ records, record.Legible) :
    a.readText (logText (wholeRecords records k)) junk =
      some { (wholeRecords records k).foldl Acceptor.replay a with
        file := logText (wholeRecords records k) } := by
  rw [← Acceptor.foldl_replay_file]
  exact Acceptor.logread_legible (fun r hr => hrecords r (mem_of_mem_wholeRecords hr)) rfl junk

/-- Reading a log up to the cut. -/
theorem Acceptor.readText_take (hrecords : ∀ record ∈ records, record.Legible) :
    ∃ fuel type blanks,
      ((cutRecord records k).elim [] fun cut => cut.1.text.take cut.2).length < fuel ∧
      (∀ c ∈ blanks, isSpace c = true) ∧
      a.readText ((logText records).take k) junk =
        Acceptor.logreadLoop fuel
          { (wholeRecords records k).foldl Acceptor.replay a with
            file := (logText records).take k } type
          ((wholeRecords records k).foldl Record.inst junk)
          (.on (blanks ++ ((cutRecord records k).elim [] fun cut => cut.1.text.take cut.2))) := by
  have htext := take_logText records k
  obtain ⟨fuel, type, blanks, hfuel, hblanks, hloop⟩ := Acceptor.logreadLoop_append
    (fun r hr => hrecords r (mem_of_mem_wholeRecords hr))
    ((cutRecord records k).elim [] fun cut => cut.1.text.take cut.2)
    ({ a with file := (logText records).take k } : Acceptor) "" junk (List.forall_mem_nil _)
    (Nat.lt_succ_self _)
  refine ⟨fuel, type, blanks, hfuel, hblanks, ?_⟩
  rw [← Acceptor.foldl_replay_file, ← hloop, List.nil_append, ← htext]
  rfl

/-- **Crash atomicity.**  A log that breaks off is read like its whole records exactly if the cut
    is harmless. -/
theorem crashAtomic_iff_harmless (hrecords : ∀ record ∈ records, record.Legible)
    (a : Acceptor) (junk k : Nat) : a.CrashAtomic records junk k ↔ a.Harmless records junk k := by
  have hwhole := @Acceptor.readText_wholeRecords records a junk k hrecords
  obtain ⟨fuel, type, blanks, hfuel, hblanks, hread⟩ :=
    @Acceptor.readText_take records a junk k hrecords
  -- the crash leaves nothing of another record
  have hclean : a.readText ((logText records).take k) junk =
      some { (wholeRecords records k).foldl Acceptor.replay a with
        file := (logText records).take k } → a.CrashAtomic records junk k := by
    intro hsame
    refine ⟨_, _, hsame, hwhole, ?_⟩
    rw [Acceptor.same_file]
    exact ⟨rfl, rfl, rfl, rfl, rfl, fun _ => rfl⟩
  unfold Acceptor.Harmless
  rcases hcut : cutRecord records k with _ | ⟨record, left⟩
  · simp only [hcut, Option.elim_none, List.append_nil] at hread hfuel
    rw [Acceptor.logreadLoop_blanks hblanks (by omega)] at hread
    refine ⟨fun _ record left h => ?_, fun _ => hclean hread⟩
    cases h
  · obtain ⟨hmem, hleft⟩ := cutRecord_eq_some hcut
    simp only [hcut, Option.elim_some] at hread hfuel
    by_cases hzero : left = 0
    · subst hzero
      rw [List.take_zero, List.append_nil,
        Acceptor.logreadLoop_blanks hblanks (by omega)] at hread
      refine ⟨fun _ r l h => ?_, fun _ => hclean hread⟩
      cases h
      exact .inl rfl
    · rw [List.length_take, Nat.min_eq_left hleft.le] at hfuel
      rw [Acceptor.logreadLoop_cut (hrecords record hmem) hzero hleft hblanks hfuel] at hread
      constructor
      · rintro ⟨b, c, hb, hc, hsame⟩ r l h
        cases h
        rw [hread] at hb
        split_ifs at hb with htag
        refine .inr ⟨htag, ?_⟩
        cases hb
        cases hwhole.symm.trans hc
        exact (Acceptor.same_remnant_iff _ _ _ _ _ _).mp hsame
      · intro hharmless
        obtain ⟨htag, hhas⟩ := (hharmless record left rfl).resolve_left hzero
        rw [if_pos htag] at hread
        exact ⟨_, _, hread, hwhole, (Acceptor.same_remnant_iff _ _ _ _ _ _).mpr hhas⟩

/-- A crash behind the tag of a `propseen` record. -/
theorem crashAtomic_behind_tag :
    (Acceptor.blank "a" []).CrashAtomic [.done 1 "a b ", .propseen ⟨3, "b"⟩] 0 21 := by
  refine (crashAtomic_iff_harmless (by decide) (Acceptor.blank "a" []) 0 21).mpr ?_
  intro record left hcut
  have heq : cutRecord [.done 1 "a b ", .propseen ⟨3, "b"⟩] 21 = some (.propseen ⟨3, "b"⟩, 9) := by
    decide
  cases heq.symm.trans hcut
  exact .inr ⟨by decide, by decide⟩

/-- A crash in the value of a view installs it without its last member, and one within the tag
    makes the node abort when it starts again. -/
theorem crash_installs_shorter_view :
    (∃ b, (Acceptor.blank "a" []).readText ((logText [.done 1 "a b "]).take 8) 0 = some b ∧
      b.value 1 = "a" ∧ ¬ (Acceptor.blank "a" []).CrashAtomic [.done 1 "a b "] 0 8) ∧
    (Acceptor.blank "a" []).readText ((logText [.done 1 "a b "]).take 2) 0 = none := by
  constructor
  · obtain ⟨b, hb, hvalue⟩ : ∃ b, (Acceptor.blank "a" []).readText
        ((logText [.done 1 "a b "]).take 8) 0 = some b ∧ b.value 1 = "a" :=
      Option.map_eq_some_iff.mp (by decide +kernel)
    refine ⟨b, hb, hvalue, ?_⟩
    rintro ⟨b', c, hb', hc, hsame⟩
    cases hb.symm.trans hb'
    have hnone : ((Acceptor.blank "a" []).readText
        (logText (wholeRecords [.done 1 "a b "] 8)) 0).map (fun c => c.value 1) = some "" := by
      decide +kernel
    rw [hc, Option.map_some, Option.some.injEq, ← hsame.value 1, hvalue] at hnone
    exact absurd hnone (by decide)
  · rw [← Option.isNone_iff_eq_none]
    decide +kernel

end Crash

end DistributedLab.Paxos
