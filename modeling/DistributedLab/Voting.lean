import Mathlib.Order.Lattice

/-!
# Ballots, votes and chosen values

The abstract core of quorum voting.  A ledger records which value was proposed in
which ballot and which node voted for it.  Nothing is said about messages: the
only obligations are that a ballot proposes one value, that two quorums share a
node, and that a proposal is *backed* by a quorum which either has no vote in a
lower ballot or whose highest lower vote carries the proposed value.  From these a
chosen value is unique.
-/

namespace DistributedLab.Voting

/-- Proposals and votes over nodes `ν`, ballots `β` and values `α`. -/
structure Ledger (ν β α : Type*) where
  proposed : β → α → Prop
  voted : ν → β → α → Prop

variable {ν β α : Type*} [LinearOrder β]

/-- `value` may be proposed in `ballot` on the word of the nodes in `q`. -/
def Ledger.Backed (L : Ledger ν β α) (q : List ν) (ballot : β) (value : α) : Prop :=
  (∀ node ∈ q, ∀ lower other, L.voted node lower other → ballot ≤ lower) ∨
  ∃ top < ballot, (∃ node, L.voted node top value) ∧
    ∀ node ∈ q, ∀ lower other, L.voted node lower other → lower < ballot → lower ≤ top

/-- Every node of some quorum voted for `value` in `ballot`. -/
def Ledger.Chosen (L : Ledger ν β α) (quorum : List ν → Prop) (ballot : β) (value : α) :
    Prop :=
  ∃ q, quorum q ∧ ∀ node ∈ q, L.voted node ballot value

/-- The obligations of a voting protocol. -/
structure Ledger.Sound (L : Ledger ν β α) (quorum : List ν → Prop) : Prop where
  voted_proposed : ∀ {node ballot value}, L.voted node ballot value →
    L.proposed ballot value
  functional : ∀ {ballot value other}, L.proposed ballot value →
    L.proposed ballot other → value = other
  backed : ∀ {ballot value}, L.proposed ballot value →
    ∃ q, quorum q ∧ L.Backed q ballot value
  intersect : ∀ {q q'}, quorum q → quorum q' → ∃ node, node ∈ q ∧ node ∈ q'
  /-- Only finitely many ballots have been used. -/
  finite : ∃ ballots : List β, ∀ ballot value, L.proposed ballot value → ballot ∈ ballots

variable {L : Ledger ν β α} {quorum : List ν → Prop}

/-- The used ballots below a used ballot are strictly fewer than those below any
    ballot above it; the order of ballots itself need not be well founded. -/
theorem countP_lt_of_mem_of_lt {ballots : List β} {low high : β} (hmem : low ∈ ballots)
    (hlt : low < high) :
    ballots.countP (fun ballot => decide (ballot < low)) <
      ballots.countP (fun ballot => decide (ballot < high)) := by
  induction ballots with
  | nil => cases hmem
  | cons first rest ih =>
      have hrest : rest.countP (fun ballot => decide (ballot < low)) ≤
          rest.countP (fun ballot => decide (ballot < high)) :=
        List.countP_mono_left fun ballot _ h => by
          simp only [decide_eq_true_eq] at h ⊢
          exact h.trans hlt
      rcases List.mem_cons.mp hmem with rfl | hin
      · simp only [List.countP_cons, lt_self_iff_false, decide_false, Bool.false_eq_true,
          if_false, hlt, decide_true, if_true]
        omega
      · have hind := ih hin
        by_cases hfirst : first < low
        · have hfirst' : first < high := hfirst.trans hlt
          simp only [List.countP_cons, hfirst, hfirst', decide_true, if_true]
          omega
        · simp only [List.countP_cons, hfirst, decide_false, Bool.false_eq_true, if_false]
          omega

/-- Once a value is chosen, every proposal of a higher ballot carries it. -/
theorem Ledger.Sound.proposed_above (h : L.Sound quorum) {ballot : β} {value : α}
    (hchosen : L.Chosen quorum ballot value) {above : β} {other : α}
    (hproposed : L.proposed above other) (hlt : ballot < above) : other = value := by
  obtain ⟨ballots, hballots⟩ := h.finite
  obtain ⟨voters, hvoters, hvoted⟩ := hchosen
  -- induction on the number of used ballots below `above`
  induction hn : ballots.countP (fun b => decide (b < above)) using Nat.strongRecOn
    generalizing above other with
  | _ n ih =>
      obtain ⟨q, hq, hbacked⟩ := h.backed hproposed
      obtain ⟨node, hnode, hnode'⟩ := h.intersect hvoters hq
      have hvote := hvoted node hnode
      rcases hbacked with hnone | ⟨top, htop, ⟨source, hsource⟩, hmax⟩
      · -- the shared node did vote below `above`
        exact absurd (hnone node hnode' ballot value hvote) (not_le.mpr hlt)
      · have hle : ballot ≤ top := hmax node hnode' ballot value hvote hlt
        have htopProposed := h.voted_proposed hsource
        rcases eq_or_lt_of_le hle with heq | hlt'
        · subst heq
          exact h.functional htopProposed (h.voted_proposed hvote)
        · have hfewer := countP_lt_of_mem_of_lt (hballots _ _ htopProposed) htop
          exact ih _ (hn ▸ hfewer) htopProposed hlt' rfl

/-- **A chosen value is unique.** -/
theorem Ledger.Sound.chosen_unique (h : L.Sound quorum) {ballot ballot' : β}
    {value value' : α} (hchosen : L.Chosen quorum ballot value)
    (hchosen' : L.Chosen quorum ballot' value') : value = value' := by
  have proposed_of : ∀ {b v}, L.Chosen quorum b v → L.proposed b v := by
    rintro b v ⟨q, hq, hvoted⟩
    obtain ⟨node, hnode, -⟩ := h.intersect hq hq
    exact h.voted_proposed (hvoted node hnode)
  rcases lt_trichotomy ballot ballot' with hlt | heq | hlt
  · exact (h.proposed_above hchosen (proposed_of hchosen') hlt).symm
  · subst heq
    exact h.functional (proposed_of hchosen) (proposed_of hchosen')
  · exact h.proposed_above hchosen' (proposed_of hchosen) hlt

end DistributedLab.Voting
