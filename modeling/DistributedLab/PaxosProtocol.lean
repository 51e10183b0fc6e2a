import Mathlib.Data.Prod.Lex
import Mathlib.Data.String.Basic

/-!
# Proposal numbers, Paxos messages and quorums

The data of `paxos_protocol.h` and the free functions of `paxos.cc`: the order on
proposal numbers, the argument and result records of the three RPCs, `isamember`
and `majority`.  `majority` counts *positions* of the member list, so the quorum
intersection below makes no assumption about repeated members.
-/

namespace DistributedLab.Paxos

/-- `unsigned` arithmetic wraps here. -/
def unsignedBound : Nat := 2 ^ 32

/-! ### Proposal numbers -/

/-- `struct prop_t`: a round number and the name of the proposing node. -/
structure PropT where
  n : Nat
  m : String
deriving DecidableEq, Repr

/-- `operator>` of `paxos.cc`. -/
def PropT.gt (a b : PropT) : Bool :=
  decide (a.n > b.n) || (a.n == b.n && decide (a.m > b.m))

/-- `operator>=` of `paxos.cc`. -/
def PropT.ge (a b : PropT) : Bool :=
  decide (a.n > b.n) || (a.n == b.n && decide (a.m ≥ b.m))

/-- The two comparison operators are those of the lexicographic order. -/
instance : LinearOrder PropT :=
  LinearOrder.lift' (fun p : PropT => toLex (p.n, p.m)) fun a b h => by
    cases a
    cases b
    simpa using h

theorem PropT.lt_iff {a b : PropT} : a < b ↔ a.n < b.n ∨ a.n = b.n ∧ a.m < b.m :=
  Prod.Lex.lt_iff (x := toLex (a.n, a.m)) (y := toLex (b.n, b.m))

theorem PropT.le_iff {a b : PropT} : a ≤ b ↔ a.n < b.n ∨ a.n = b.n ∧ a.m ≤ b.m :=
  Prod.Lex.le_iff (x := toLex (a.n, a.m)) (y := toLex (b.n, b.m))

@[simp] theorem PropT.gt_eq_true {a b : PropT} : a.gt b = true ↔ b < a := by
  simp only [PropT.gt, PropT.lt_iff, Bool.or_eq_true, Bool.and_eq_true, decide_eq_true_eq,
    beq_iff_eq, gt_iff_lt, @eq_comm _ a.n]

@[simp] theorem PropT.ge_eq_true {a b : PropT} : a.ge b = true ↔ b ≤ a := by
  simp only [PropT.ge, PropT.le_iff, Bool.or_eq_true, Bool.and_eq_true, decide_eq_true_eq,
    beq_iff_eq, gt_iff_lt, ge_iff_le, @eq_comm _ a.n]

theorem PropT.n_le_of_le {a b : PropT} (h : a ≤ b) : a.n ≤ b.n := by
  rcases PropT.le_iff.mp h with h | h <;> omega

/-! ### RPC arguments and results -/

structure PrepareArg where
  inst : Nat
  n : PropT
deriving DecidableEq, Repr

/-- `prepareres`.  The handler leaves `n_a` unset unless it accepts; no caller reads
    it then. -/
structure PrepareRes where
  oldinstance : Bool := false
  accept : Bool := false
  nA : PropT := ⟨0, ""⟩
  vA : String := ""
deriving DecidableEq, Repr

structure AcceptArg where
  inst : Nat
  n : PropT
  v : String
deriving DecidableEq, Repr

structure DecideArg where
  inst : Nat
  v : String
deriving DecidableEq, Repr

inductive Request where
  | prepare (arg : PrepareArg)
  | accept (arg : AcceptArg)
  | decide (arg : DecideArg)
deriving DecidableEq, Repr

inductive Response where
  | prepare (res : PrepareRes)
  | accept (r : Bool)
  | decide
deriving DecidableEq, Repr

/-! ### Membership and majorities -/

def isamember (m : String) (nodes : List String) : Bool :=
  nodes.any fun node => node == m

@[simp] theorem isamember_eq_true {m : String} {nodes : List String} :
    isamember m nodes = true ↔ m ∈ nodes := by
  simp [isamember]

/-- Does `l2` contain a majority of the servers in `l1`?  The loop counts the positions
    of `l1`. -/
def majority (l1 l2 : List String) : Bool :=
  decide (l1.countP (fun node => isamember node l2) ≥ (l1.length >>> 1) + 1)

theorem countP_add_countP_le (nodes : List α) (p q : α → Bool) :
    nodes.countP p + nodes.countP q ≤
      nodes.length + nodes.countP (fun node => p node && q node) := by
  induction nodes with
  | nil => simp
  | cons node nodes ih =>
      simp only [List.countP_cons, List.length_cons]
      cases p node <;> cases q node <;> simp <;> omega

/-- **Two majorities of one list share a member of it.** -/
theorem majority_intersect {l1 a b : List String} (ha : majority l1 a = true)
    (hb : majority l1 b = true) : ∃ node ∈ l1, node ∈ a ∧ node ∈ b := by
  simp only [majority, decide_eq_true_eq, Nat.shiftRight_eq_div_pow, pow_one] at ha hb
  have hsum := countP_add_countP_le l1 (fun node => isamember node a)
    (fun node => isamember node b)
  have hpos : 0 < l1.countP (fun node => isamember node a && isamember node b) := by omega
  obtain ⟨node, hnode, hboth⟩ := List.countP_pos_iff.mp hpos
  simp only [Bool.and_eq_true, isamember_eq_true] at hboth
  exact ⟨node, hnode, hboth⟩

end DistributedLab.Paxos
