import DistributedLab.PaxosProtocol
import Mathlib.Logic.Function.Basic

/-!
# The acceptor

`class acceptor` of `paxos.cc` together with the text of its log file
(`log.cc`).  Every handler runs under `pxs_mutex`, so it is one function on the
state; `commit_wo` has made all its changes before it drops the mutex for the
upcall.  A failed `VERIFY` ends the process and is modelled by `none`.

The three instance-dependent fields `n_h`, `n_a`, `v_a` are shared by all
instances, and only `preparereq` and `decidereq` look at the instance number of a
request.
-/

namespace DistributedLab.Paxos

/-! ### Log records -/

/-- One line of the log file. -/
inductive Record where
  | done (inst : Nat) (v : String)
  | propseen (nH : PropT)
  | accepted (n : PropT) (v : String)
deriving DecidableEq, Repr

/-- The text that `loginstance`, `logprop` and `logaccept` append. -/
def Record.text : Record → List Char
  | .done inst v =>
      "done".toList ++ ' ' :: (Nat.toDigits 10 inst ++ ' ' :: (v.toList ++ ['\n']))
  | .propseen nH =>
      "propseen".toList ++ ' ' :: (Nat.toDigits 10 nH.n ++ ' ' :: (nH.m.toList ++ ['\n']))
  | .accepted n v =>
      "accepted".toList ++ ' ' :: (Nat.toDigits 10 n.n ++ ' ' ::
        (n.m.toList ++ ' ' :: (v.toList ++ ['\n'])))

/-- The text of a whole log. -/
def logText (records : List Record) : List Char := records.flatMap Record.text

@[simp] theorem logText_append (records records' : List Record) :
    logText (records ++ records') = logText records ++ logText records' := by
  simp [logText]

@[simp] theorem logText_singleton (record : Record) : logText [record] = record.text := by
  simp [logText]

/-! ### State and operations -/

/-- `class acceptor`.  `values` is the map of decided values; `operator[]` on a missing
    key inserts the empty string, which no later read can tell from its absence. -/
structure Acceptor where
  me : String
  nH : PropT
  nA : PropT
  vA : String
  instanceH : Nat
  values : Nat → Option String
  file : List Char

/-- The member initialisers of the constructor, before the log is read. -/
def Acceptor.blank (me : String) (file : List Char) : Acceptor where
  me := me
  nH := ⟨0, me⟩
  nA := ⟨0, me⟩
  vA := ""
  instanceH := 0
  values := fun _ => none
  file := file

/-- `values[inst]`. -/
def Acceptor.value (a : Acceptor) (inst : Nat) : String := (a.values inst).getD ""

/-- Append a record to the log file. -/
def Acceptor.append (a : Acceptor) (record : Record) : Acceptor :=
  { a with file := a.file ++ record.text }

def Acceptor.preparereq (a : Acceptor) (arg : PrepareArg) : Acceptor × PrepareRes :=
  if arg.inst ≤ a.instanceH then
    (a, { oldinstance := true, vA := a.value arg.inst })
  else if arg.n.gt a.nH then
    (({ a with nH := arg.n }).append (.propseen arg.n),
      { accept := true, nA := a.nA, vA := a.vA })
  else
    (a, {})

/-- `acceptreq` never looks at `arg.inst`. -/
def Acceptor.acceptreq (a : Acceptor) (arg : AcceptArg) : Acceptor × Bool :=
  if arg.n.ge a.nH then
    (({ a with nA := arg.n, vA := arg.v }).append (.accepted arg.n arg.v), true)
  else
    (a, false)

def Acceptor.commitWo (a : Acceptor) (inst : Nat) (value : String) : Acceptor :=
  if inst > a.instanceH then
    ({ a with
      values := Function.update a.values inst (some value)
      instanceH := inst
      nH := ⟨0, a.me⟩
      nA := ⟨0, a.me⟩
      vA := "" }).append (.done inst value)
  else a

def Acceptor.commit (a : Acceptor) (inst : Nat) (value : String) : Acceptor :=
  a.commitWo inst value

def Acceptor.decidereq (a : Acceptor) (arg : DecideArg) : Option Acceptor :=
  if arg.inst = (a.instanceH + 1) % unsignedBound then
    -- VERIFY(v_a == a.v)
    if a.vA = arg.v then some (a.commitWo arg.inst a.vA) else none
  else if arg.inst ≤ a.instanceH then
    some a
  else
    -- VERIFY(0): we are behind
    none

/-- The handler of a request; `none` when it aborts the process. -/
def Acceptor.handle (a : Acceptor) : Request → Option (Acceptor × Response)
  | .prepare arg => some ((a.preparereq arg).1, .prepare (a.preparereq arg).2)
  | .accept arg => some ((a.acceptreq arg).1, .accept (a.acceptreq arg).2)
  | .decide arg => (a.decidereq arg).map fun next => (next, .decide)

/-! ### What each operation does -/

/-- The state right after committing `inst`. -/
def Acceptor.committed (a : Acceptor) (inst : Nat) (value : String) : Acceptor :=
  ({ a with
    values := Function.update a.values inst (some value)
    instanceH := inst
    nH := ⟨0, a.me⟩
    nA := ⟨0, a.me⟩
    vA := "" }).append (.done inst value)

theorem Acceptor.commitWo_of_lt {a : Acceptor} {inst : Nat} {value : String}
    (h : a.instanceH < inst) : a.commitWo inst value = a.committed inst value := by
  rw [Acceptor.commitWo, if_pos h, Acceptor.committed]

theorem Acceptor.commitWo_of_le {a : Acceptor} {inst : Nat} {value : String}
    (h : inst ≤ a.instanceH) : a.commitWo inst value = a := by
  rw [Acceptor.commitWo, if_neg (Nat.not_lt.mpr h)]

/-- The seven outcomes of a handler that returns. -/
inductive Acceptor.Outcome (a : Acceptor) : Request → Acceptor → Response → Prop
  | oldinstance {arg : PrepareArg} (hinst : arg.inst ≤ a.instanceH) :
      Outcome a (.prepare arg) a
        (.prepare { oldinstance := true, vA := a.value arg.inst })
  | promised {arg : PrepareArg} (hinst : a.instanceH < arg.inst) (hn : a.nH < arg.n) :
      Outcome a (.prepare arg) (({ a with nH := arg.n }).append (.propseen arg.n))
        (.prepare { accept := true, nA := a.nA, vA := a.vA })
  | rejected {arg : PrepareArg} (hinst : a.instanceH < arg.inst) (hn : arg.n ≤ a.nH) :
      Outcome a (.prepare arg) a (.prepare {})
  | voted {arg : AcceptArg} (hn : a.nH ≤ arg.n) :
      Outcome a (.accept arg)
        (({ a with nA := arg.n, vA := arg.v }).append (.accepted arg.n arg.v))
        (.accept true)
  | refused {arg : AcceptArg} (hn : arg.n < a.nH) : Outcome a (.accept arg) a (.accept false)
  | committed {arg : DecideArg} (hinst : arg.inst = a.instanceH + 1) (hv : a.vA = arg.v) :
      Outcome a (.decide arg) (a.committed arg.inst arg.v) .decide
  | ignored {arg : DecideArg} : Outcome a (.decide arg) a .decide

theorem Acceptor.preparereq_outcome (a : Acceptor) (arg : PrepareArg) :
    a.Outcome (.prepare arg) (a.preparereq arg).1 (.prepare (a.preparereq arg).2) := by
  unfold Acceptor.preparereq
  by_cases hold : arg.inst ≤ a.instanceH
  · rw [if_pos hold]
    exact .oldinstance hold
  · rw [if_neg hold]
    have hinst : a.instanceH < arg.inst := Nat.not_le.mp hold
    by_cases hgt : arg.n.gt a.nH = true
    · rw [if_pos hgt]
      exact .promised hinst (PropT.gt_eq_true.mp hgt)
    · rw [if_neg hgt]
      exact .rejected hinst (not_lt.mp fun hlt => hgt (PropT.gt_eq_true.mpr hlt))

theorem Acceptor.acceptreq_outcome (a : Acceptor) (arg : AcceptArg) :
    a.Outcome (.accept arg) (a.acceptreq arg).1 (.accept (a.acceptreq arg).2) := by
  unfold Acceptor.acceptreq
  by_cases hge : arg.n.ge a.nH = true
  · rw [if_pos hge]
    exact .voted (PropT.ge_eq_true.mp hge)
  · rw [if_neg hge]
    exact .refused (not_le.mp fun hle => hge (PropT.ge_eq_true.mpr hle))

/-- A decide request that does not abort the acceptor commits the value it has accepted,
    or changes nothing. -/
theorem Acceptor.decidereq_outcome {a next : Acceptor} {arg : DecideArg}
    (h : a.decidereq arg = some next) : a.Outcome (.decide arg) next .decide := by
  unfold Acceptor.decidereq at h
  by_cases hnext : arg.inst = (a.instanceH + 1) % unsignedBound
  · rw [if_pos hnext] at h
    by_cases hv : a.vA = arg.v
    · rw [if_pos hv, Option.some.injEq, hv] at h
      subst h
      rcases Nat.lt_or_ge a.instanceH arg.inst with hlt | hge
      · -- the increment of `instance_h` did not wrap
        have hle := Nat.mod_le (a.instanceH + 1) unsignedBound
        rw [commitWo_of_lt hlt]
        exact .committed (by omega) hv
      · rw [commitWo_of_le hge]
        exact .ignored
    · rw [if_neg hv] at h
      cases h
  · rw [if_neg hnext] at h
    by_cases hold : arg.inst ≤ a.instanceH
    · rw [if_pos hold, Option.some.injEq] at h
      subst h
      exact .ignored
    · rw [if_neg hold] at h
      cases h

theorem Acceptor.handle_outcome {a next : Acceptor} {req : Request} {res : Response}
    (h : a.handle req = some (next, res)) : a.Outcome req next res := by
  cases req with
  | prepare arg =>
      obtain ⟨rfl, rfl⟩ := Prod.mk.inj (Option.some.inj h)
      exact a.preparereq_outcome arg
  | accept arg =>
      obtain ⟨rfl, rfl⟩ := Prod.mk.inj (Option.some.inj h)
      exact a.acceptreq_outcome arg
  | decide arg =>
      obtain ⟨after, hafter, heq⟩ := Option.map_eq_some_iff.mp h
      obtain ⟨rfl, rfl⟩ := Prod.mk.inj heq
      exact decidereq_outcome hafter

end DistributedLab.Paxos
