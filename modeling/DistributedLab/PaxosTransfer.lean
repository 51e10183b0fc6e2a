import DistributedLab.PaxosAgreement

/-!
# Logs handed from node to node

`restore` replaces the log of a node by that of another one and reads it.  With the
decided values the node takes over what the other one has promised and accepted in its
next instance.  For agreement this does no harm as long as the node itself has taken no
part in that instance: the vote it now reports was given by someone, and it has made no
promise that it could forget.
-/

namespace DistributedLab.Paxos

open TextStream

/-! ### What a log says about the round in progress -/

/-- A proposal number up to the name in a number 0. -/
def PropT.normal (n : PropT) : PropT := if n.n = 0 then ⟨0, ""⟩ else n

/-- What an acceptor has promised and accepted in the instance it decides next. -/
def Acceptor.round (a : Acceptor) : PropT × PropT × String := (a.nH.normal, a.nA.normal, a.vA)

/-- Nothing promised and nothing accepted. -/
def noRound : PropT × PropT × String := (⟨0, ""⟩, ⟨0, ""⟩, "")

section Round

variable {a b : Acceptor}

theorem PropT.normal_of_ne {n : PropT} (h : n.n ≠ 0) : n.normal = n := if_neg h

@[simp] theorem PropT.n_normal (n : PropT) : n.normal.n = n.n := by
  unfold PropT.normal
  split
  · rename_i hzero
    exact hzero.symm
  · rfl

theorem Acceptor.nA_n_of_round (h : a.round = b.round) : a.nA.n = b.nA.n := by
  rw [← a.nA.n_normal, ← b.nA.n_normal]
  exact congrArg (fun round => round.2.1.n) h

theorem Acceptor.nH_n_of_round (h : a.round = b.round) : a.nH.n = b.nH.n := by
  rw [← a.nH.n_normal, ← b.nH.n_normal]
  exact congrArg (fun round => round.1.n) h

theorem Acceptor.nA_of_round (h : a.round = b.round) (hne : b.nA.n ≠ 0) : a.nA = b.nA := by
  have hne' : a.nA.n ≠ 0 := Acceptor.nA_n_of_round h ▸ hne
  rw [← PropT.normal_of_ne hne, ← PropT.normal_of_ne hne']
  exact congrArg (fun round => round.2.1) h

theorem Acceptor.nH_of_round (h : a.round = b.round) (hne : b.nH.n ≠ 0) : a.nH = b.nH := by
  have hne' : a.nH.n ≠ 0 := Acceptor.nH_n_of_round h ▸ hne
  rw [← PropT.normal_of_ne hne, ← PropT.normal_of_ne hne']
  exact congrArg (fun round => round.1) h

theorem Acceptor.vA_of_round (h : a.round = b.round) : a.vA = b.vA :=
  congrArg (fun round => round.2.2) h

theorem Acceptor.round_replay (h : a.round = b.round) (record : Record) :
    (a.replay record).round = (b.replay record).round := by
  cases record with
  | done inst v => rfl
  | propseen nH =>
      have hrest : a.round.2 = b.round.2 := congrArg Prod.snd h
      exact Prod.ext rfl hrest
  | accepted n v =>
      have hfirst : a.round.1 = b.round.1 := congrArg Prod.fst h
      exact Prod.ext hfirst rfl

end Round

/-- The round in progress can be read off the file: whatever acceptor reads it ends in the same
    round, if the file decides something or the reader has none of its own. -/
def Acceptor.Mirrored (a : Acceptor) : Prop :=
  ∃ records : List Record, a.file = logText records ∧
    (∀ record ∈ records, record.Readable) ∧
    ∀ b : Acceptor, (1 ≤ a.instanceH ∨ b.round = noRound) →
      (records.foldl Acceptor.replay b).round = a.round

section Mirrored

variable {Q : String → Prop} {a next : Acceptor}

theorem Acceptor.Mirrored.append (h : a.Mirrored) (record : Record) (hreadable : record.Readable)
    (hfile : next.file = a.file ++ record.text) (hinst : next.instanceH = a.instanceH)
    (hround : next.round = (a.replay record).round) : next.Mirrored := by
  obtain ⟨records, htext, hrecords, hmirror⟩ := h
  refine ⟨records ++ [record], ?_, ?_, fun b hb => ?_⟩
  · rw [hfile, htext, logText_append, logText_singleton]
  · exact List.forall_mem_append.mpr ⟨hrecords, List.forall_mem_singleton.mpr hreadable⟩
  · rw [List.foldl_append, hround]
    exact Acceptor.round_replay (hmirror b (hinst ▸ hb)) record

theorem Acceptor.Mirrored.committed (h : a.Mirrored) {inst : Nat} {v : String}
    (hreadable : (Record.done inst v).Readable) : (a.committed inst v).Mirrored := by
  obtain ⟨records, htext, hrecords, -⟩ := h
  refine ⟨records ++ [.done inst v], ?_, ?_, fun b _ => ?_⟩
  · rw [logText_append, logText_singleton, ← htext]
    rfl
  · exact List.forall_mem_append.mpr ⟨hrecords, List.forall_mem_singleton.mpr hreadable⟩
  · rw [List.foldl_append]
    rfl

theorem Acceptor.Outcome.mirrored {req : Request} {res : Response}
    (houtcome : a.Outcome req next res) (h : a.Mirrored) (hreq : req.Legible Q)
    (hline : ∀ v, Q v → '\n' ∉ v.toList) : next.Mirrored := by
  cases houtcome with
  | oldinstance hinst => exact h
  | @promised arg hinst hn => exact h.append (.propseen arg.n) hreq rfl rfl rfl
  | rejected hinst hn => exact h
  | @voted arg hn =>
      exact h.append (.accepted arg.n arg.v) ⟨hreq.1, hreq.2.1, hline _ hreq.2.2⟩ rfl rfl rfl
  | refused hn => exact h
  | committed hinst hv => exact h.committed ⟨by omega, hreq.1, hline _ hreq.2⟩
  | ignored => exact h

theorem Acceptor.Mirrored.commit (h : a.Mirrored) {inst : Nat} {v : String}
    (hbound : inst < unsignedBound) (hv : inst ≠ 0 → Q v)
    (hline : ∀ v, Q v → '\n' ∉ v.toList) : (a.commit inst v).Mirrored := by
  rcases Nat.lt_or_ge a.instanceH inst with hlt | hge
  · have hpos : inst ≠ 0 := by omega
    rw [Acceptor.commit, Acceptor.commitWo_of_lt hlt]
    exact h.committed ⟨by omega, hbound, hline _ (hv hpos)⟩
  · rw [Acceptor.commit, Acceptor.commitWo_of_le hge]
    exact h

/-- A step of the cluster. -/
theorem Cluster.Chronicled.mirrored {s t : Cluster} {action : Action} (h : s.Chronicled Q)
    (hwired : s.Wired) (hmove : s.Move action t) (hline : ∀ v, Q v → '\n' ∉ v.toList)
    (hmirrored : ∀ p, (s.acc p).Mirrored) (p : String) : (t.acc p).Mirrored := by
  cases hmove with
  | run hrun hinst =>
      show ((s.setPro _ _).acc p).Mirrored
      rw [Cluster.acc_setPro]
      exact hmirrored p
  | call hrun hpending hdst =>
      show ((s.setPro _ _).acc p).Mirrored
      rw [Cluster.acc_setPro]
      exact hmirrored p
  | @handled call acc res hcall houtcome =>
      show ((s.setAcc call.dst acc).acc p).Mirrored
      rw [Cluster.acc_setAcc]
      split
      · exact houtcome.mirrored (hmirrored _) (h.call _ hcall) hline
      · exact hmirrored p
  | aborted =>
      rw [Cluster.acc_setDown]
      exact hmirrored p
  | @oldinstance q r call res hr hreply hclt hpending hphase hold =>
      have hreq := hwired.replied hr hreply hclt hpending
      simp only [Run.request, hphase] at hreq
      rw [Cluster.setRun, Cluster.acc_setPro, Cluster.acc_setAcc]
      split
      · exact (hmirrored q).commit (h.run hr).1 ((h.reply hreply hreq).1 hold) hline
      · exact hmirrored p
  | skip hrun | prepared hrun | accepted hrun | decided hrun | next hrun =>
      rw [Cluster.setRun, Cluster.acc_setPro]
      exact hmirrored p

/-- `restore` takes over the round of the acceptor whose log it reads. -/
theorem Acceptor.Mirrored.restore (h : a.Mirrored) (hpos : 1 ≤ a.instanceH) {b acc : Acceptor}
    {junk : Nat} (hacc : b.restore a.file junk = some acc) :
    acc.round = a.round ∧ acc.Mirrored := by
  obtain ⟨records, htext, hrecords, hmirror⟩ := h
  have hread := Acceptor.logread_readable (a := { b with file := a.file }) hrecords htext junk
  obtain rfl := Option.some.inj (hacc.symm.trans hread)
  have hround := hmirror { b with file := a.file } (.inl hpos)
  refine ⟨hround, records, ?_, hrecords, fun c _ => ?_⟩
  · rw [Acceptor.foldl_replay_file]
    exact htext
  · rw [hround]
    exact hmirror c (.inl hpos)

/-- A file without records stands for no round. -/
theorem Acceptor.Mirrored.round_of_empty (h : a.Mirrored) (hfile : a.file = []) :
    a.round = noRound := by
  obtain ⟨records, htext, -, hmirror⟩ := h
  obtain rfl := logText_eq_nil (htext.symm.trans hfile)
  rw [← hmirror (Acceptor.blank "" []) (.inr rfl)]
  rfl

/-- The constructor over an empty log. -/
theorem Acceptor.mirrored_new {first : Bool} {me : String} {junk : Nat}
    (hnew : Acceptor.new first me me [] junk = some next) (hline : '\n' ∉ me.toList) :
    next.Mirrored := by
  have hblank : (Acceptor.blank me []).Mirrored := by
    refine ⟨[], rfl, nofun, fun b hb => ?_⟩
    rcases hb with hpos | hround
    · cases hpos
    · exact hround
  have hread : (Acceptor.blank me []).logread junk = some (Acceptor.blank me []) :=
    Acceptor.logread_readable (fun _ h => absurd h List.not_mem_nil) rfl junk
  rw [Acceptor.new, hread, Option.map_some, Option.some.injEq] at hnew
  subst hnew
  unfold Acceptor.logFirst
  split
  · exact hblank.committed ⟨Nat.le_refl 1, by decide, hline⟩
  · exact hblank

end Mirrored

/-! ### What the log rests on -/

/-- The acceptor that has restored the log of `a`. -/
theorem Acceptor.Founded.restore {members : Nat → List String → Prop} {first : String}
    {calls : List Call} {replies : List Reply} {Q : String → Prop} {a b acc : Acceptor} {junk : Nat}
    (h : a.Founded members first replies) (hb : b.Founded members first replies)
    (hcons : Consistent members first calls replies) (hcomplete : a.Complete Q)
    (hpos : 1 ≤ a.instanceH) (hmirrored : a.Mirrored) (hacc : b.restore a.file junk = some acc) :
    acc.Founded members first replies := by
  have hreads := Acceptor.reads_of_logread (a := { b with file := a.file }) hcomplete.file hacc
  have hround := (hmirrored.restore hpos hacc).1
  have hinst : acc.instanceH = a.instanceH := by
    rw [hreads.instanceH, if_neg (by omega)]
  refine ⟨?_, ?_, fun {inst v} hv => ?_⟩
  · rcases h.held with ⟨hzero, hempty⟩ | ⟨d, hvote⟩
    · refine .inl ⟨?_, ?_⟩
      · rw [Acceptor.nA_n_of_round hround]
        exact hzero
      · rw [Acceptor.vA_of_round hround]
        exact hempty
    · have hnumber : 1 ≤ a.nA.n := (hcons.of_voted hvote).2.2.2
      refine .inr ⟨d, ?_⟩
      rw [hinst, Acceptor.nA_of_round hround (by omega), Acceptor.vA_of_round hround]
      exact hvote
  · rw [Acceptor.nA_n_of_round hround]
    rcases Nat.eq_zero_or_pos a.nA.n with hzero | hnumber
    · exact .inl hzero
    · have hle := h.bounded.resolve_left (by omega)
      have hseen := PropT.n_le_of_le hle
      rw [Acceptor.nA_of_round hround (by omega), Acceptor.nH_of_round hround (by omega)]
      exact .inr hle
  · by_cases hread : 1 ≤ inst ∧ inst ≤ a.instanceH
    · rw [hreads.read inst hread.1 hread.2, Option.some.injEq] at hv
      obtain ⟨w, hw⟩ := Option.ne_none_iff_exists'.mp (hcomplete.defined inst hread.1 hread.2)
      have hsame : w = v := by
        rw [← hv, Acceptor.value, hw, Option.getD_some]
      exact hsame ▸ h.decided hw
    · rw [hreads.kept inst (by omega)] at hv
      exact hb.decided hv

end DistributedLab.Paxos
