import DistributedLab.RpcTrimming
import Mathlib.Order.Bounds.Defs

/-!
# The contiguous prefix of finished calls

`update_xid_rep` keeps the xids of finished calls in order and drops the front as long as the
next one follows it without a gap.  A call may report its xid twice, and a repetition of an
xid that is not the front stays in the list.  When the gap before such an xid closes, the
inner loop pops all its copies at once, and it stops at the element the iterator stands on,
which does not follow itself.  So the front is the end of the xids that have come without a gap.
-/

namespace DistributedLab.Rpc

section Compress

variable {before after : List Nat} {x y : Nat}

/-- The inner loop: the elements before `y` are copies of one xid right before it, and go, or all
    of them stay. -/
theorem dropWhile_front (hle : ∀ x ∈ before, x ≤ y) (hline : InLine before) (hy : y < xidBound)
    (hgap : before.headD 0 + 1 ∉ before) :
    (before.dropWhile (fun front => (front + 1) % xidBound == y) = [] ∧ ∀ x ∈ before, x + 1 = y) ∨
      before.dropWhile (fun front => (front + 1) % xidBound == y) = before ∧
        before.headD 0 + 1 ≠ y := by
  rcases before with _ | ⟨front, rest⟩
  · exact absurd rfl hline.ne_nil
  rw [List.headD_cons] at hgap ⊢
  by_cases hnext : front + 1 = y
  · left
    -- between `front` and `y` there is nothing but copies of `front`
    have hcopies : ∀ x ∈ front :: rest, x + 1 = y := by
      intro x hx
      have hlow : front ≤ x := hline.head_le hx
      have hhigh := hle x hx
      have hne : x ≠ front + 1 := fun heq => hgap (heq ▸ hx)
      omega
    refine ⟨List.dropWhile_eq_nil_iff.mpr fun x hx => ?_, hcopies⟩
    rw [beq_iff_eq, succ_mod_eq_iff (hle x hx) hy]
    exact hcopies x hx
  · right
    refine ⟨List.dropWhile_cons_of_neg ?_, hnext⟩
    rwa [beq_iff_eq, succ_mod_eq_iff (hle front List.mem_cons_self) hy]

theorem compress_headD_ge (hline : InLine (before ++ after)) (hne : before ≠ []) :
    before.headD 0 ≤ (compress before after).headD 0 := by
  have hhead : (before ++ after).headD 0 = before.headD 0 := by
    rcases before with _ | ⟨front, rest⟩
    · exact absurd rfl hne
    · rfl
  rw [← hhead]
  apply hline.head_le
  apply (compress_sublist before after).subset
  rcases hcomp : compress before after with _ | ⟨first, more⟩
  · exact absurd hcomp (compress_ne_nil after hne)
  · exact List.mem_cons_self

/-- The outer loop leaves no xid right after the front, and drops nothing above the front. -/
theorem compress_complete (hline : InLine (before ++ after)) (hne : before ≠ [])
    (hbound : ∀ x ∈ before ++ after, x < xidBound) (hgap : before.headD 0 + 1 ∉ before) :
    (compress before after).headD 0 + 1 ∉ compress before after ∧
      ∀ x ∈ before ++ after, x ≤ (compress before after).headD 0 ∨ x ∈ compress before after := by
  induction after generalizing before with
  | nil =>
      rw [List.append_nil]
      exact ⟨hgap, fun x hx => .inr hx⟩
  | cons y after ih =>
      have hsorted := hline.ascending
      have hle : ∀ x ∈ before, x ≤ y := by
        intro x hx
        exact (List.pairwise_append.mp hsorted).2.2 x hx y List.mem_cons_self
      have hbefore : InLine before := ⟨hne, (List.pairwise_append.mp hsorted).1⟩
      have hy : y < xidBound := hbound y (by simp)
      rw [compress]
      rcases dropWhile_front hle hbefore hy hgap with ⟨hdrop, hcopies⟩ | ⟨hdrop, hnext⟩
      · -- `y` becomes the front
        rw [hdrop, List.nil_append]
        have htail : InLine ([y] ++ after) := ⟨by simp, (List.pairwise_append.mp hsorted).2.1⟩
        have hrest : ∀ x ∈ [y] ++ after, x < xidBound :=
          fun x hx => hbound x (List.mem_append_right _ hx)
        obtain ⟨hgap', hkept⟩ := ih htail (by simp) hrest (by simp)
        refine ⟨hgap', fun x hx => ?_⟩
        rcases List.mem_append.mp hx with hx | hx
        · have hfront := compress_headD_ge htail (by simp)
          have hlt := hcopies x hx
          rw [List.headD_cons] at hfront
          exact .inl (by omega)
        · exact hkept x hx
      · have hsame : before ++ [y] ++ after = before ++ y :: after := by simp
        have hhead : (before ++ [y]).headD 0 = before.headD 0 := by
          rcases before with _ | ⟨front, rest⟩
          · exact absurd rfl hne
          · rfl
        have hgap' : (before ++ [y]).headD 0 + 1 ∉ before ++ [y] := by
          rw [hhead, List.mem_append, List.mem_singleton]
          exact not_or.mpr ⟨hgap, hnext⟩
        rw [hdrop, ← hsame]
        exact ih (hsame ▸ hline) (by simp) (hsame ▸ hbound) hgap'

end Compress

/-! ### Calls of `update_xid_rep` -/

/-- The window that holds 0 only, after calls with these xids. -/
def windowAfter (xids : List Nat) : List Nat :=
  xids.foldl (fun window xid => updateXidRep xid window) [0]

/-- The window when these xids have been passed. -/
structure Contiguous (passed window : List Nat) : Prop where
  line : InLine window
  entries : ∀ x ∈ window, x = 0 ∨ x ∈ passed
  below : ∀ x, 1 ≤ x → x ≤ window.headD 0 → x ∈ passed
  kept : ∀ x ∈ passed, x ≤ window.headD 0 ∨ x ∈ window
  gap : window.headD 0 + 1 ∉ window

theorem mem_insertXid_of_mem {x xid : Nat} {window : List Nat} (h : x = xid ∨ x ∈ window) :
    x ∈ insertXid xid window := by
  induction window with
  | nil => simpa [insertXid] using h
  | cons y rest ih =>
      rw [insertXid]
      split_ifs
      · exact List.mem_cons.mpr h
      · rcases h with rfl | h
        · exact List.mem_cons_of_mem _ (ih (.inl rfl))
        · rcases List.mem_cons.mp h with rfl | h
          · exact List.mem_cons_self
          · exact List.mem_cons_of_mem _ (ih (.inr h))

theorem updateXidRep_complete {window : List Nat} (hline : InLine window)
    (hbound : ∀ x ∈ window, x < xidBound) {xid : Nat} (hxid : xid < xidBound)
    (hgap : window.headD 0 + 1 ∉ window) :
    (updateXidRep xid window).headD 0 + 1 ∉ updateXidRep xid window ∧
      ∀ x, x = xid ∨ x ∈ window →
        x ≤ (updateXidRep xid window).headD 0 ∨ x ∈ updateXidRep xid window := by
  rcases window with _ | ⟨front, rest⟩
  · exact absurd rfl hline.ne_nil
  simp only [updateXidRep]
  split_ifs with hle
  · refine ⟨hgap, fun x hx => ?_⟩
    rcases hx with rfl | hx
    · exact .inl hle
    · exact .inr hx
  · have hinsert : insertXid xid (front :: rest) = front :: insertXid xid rest := by
      have hnot : ¬ front > xid := by omega
      simp [insertXid, hnot]
    have hmem : ∀ x, x = xid ∨ x ∈ front :: rest → x ∈ front :: insertXid xid rest := by
      intro x hx
      rw [← hinsert]
      exact mem_insertXid_of_mem hx
    have hsorted : (insertXid xid (front :: rest)).Pairwise (· ≤ ·) :=
      insertXid_pairwise hline.ascending
    have hlow : ∀ x ∈ insertXid xid (front :: rest), x < xidBound := by
      intro x hx
      rcases mem_insertXid hx with rfl | hx
      · exact hxid
      · exact hbound x hx
    rw [hinsert] at hsorted hlow ⊢
    have hline' : InLine ([front] ++ insertXid xid rest) := ⟨by simp, hsorted⟩
    obtain ⟨hgap', hkept⟩ := compress_complete hline' (by simp) hlow (by simp)
    exact ⟨hgap', fun x hx => hkept x (hmem x hx)⟩

/-- **One call.** -/
theorem Contiguous.updateXidRep {passed window : List Nat} (h : Contiguous passed window)
    {xid : Nat} (hpassed : ∀ x ∈ passed, x < xidBound) (hxid : xid < xidBound) :
    Contiguous (passed ++ [xid]) (updateXidRep xid window) := by
  have hbound : ∀ x ∈ window, x < xidBound := by
    intro x hx
    rcases h.entries x hx with rfl | hx
    · decide
    · exact hpassed x hx
  obtain ⟨hline, hfront, hmoved⟩ := h.line.updateXidRep hbound hxid
  obtain ⟨hgap, hkept⟩ := updateXidRep_complete h.line hbound hxid h.gap
  refine ⟨hline, fun x hx => ?_, fun x hpos hx => ?_, fun x hx => ?_, hgap⟩
  · rcases mem_updateXidRep hx with rfl | hx
    · exact .inr (by simp)
    · exact (h.entries x hx).imp id (List.mem_append_left _)
  · rcases hmoved x hx with hold | rfl | hold
    · exact List.mem_append_left _ (h.below x hpos hold)
    · simp
    · rcases h.entries x hold with rfl | hold
      · omega
      · exact List.mem_append_left _ hold
  · rcases List.mem_append.mp hx with hold | hnew
    · rcases h.kept x hold with hle | hmem
      · exact .inl (hle.trans hfront)
      · exact hkept x (.inr hmem)
    · exact hkept x (.inl (List.mem_singleton.mp hnew))

theorem Contiguous.foldl {passed window : List Nat} (h : Contiguous passed window)
    (hpassed : ∀ x ∈ passed, x < xidBound) {xids : List Nat} (hxids : ∀ x ∈ xids, x < xidBound) :
    Contiguous (passed ++ xids) (xids.foldl (fun window xid => Rpc.updateXidRep xid window)
      window) := by
  induction xids generalizing passed window with
  | nil =>
      rw [List.append_nil]
      exact h
  | cons xid xids ih =>
      obtain ⟨hxid, hrest⟩ := List.forall_mem_cons.mp hxids
      have hmore : ∀ x ∈ passed ++ [xid], x < xidBound :=
        List.forall_mem_append.mpr ⟨hpassed, List.forall_mem_singleton.mpr hxid⟩
      have hstep := ih (h.updateXidRep hpassed hxid) hmore hrest
      rw [List.append_assoc] at hstep
      exact hstep

theorem contiguous_new : Contiguous [] [0] where
  line := ⟨by simp, List.pairwise_singleton _ _⟩
  entries := fun x hx => .inl (List.mem_singleton.mp hx)
  below := fun x hpos hx => absurd hx (Nat.not_le.mpr hpos)
  kept := fun x hx => absurd hx List.not_mem_nil
  gap := by simp

/-- **The front is the end of the xids that have come without a gap**, whatever the order of the
    calls and however often they repeat an xid. -/
theorem front_is_greatest_passed {xids : List Nat} (h : ∀ x ∈ xids, 1 ≤ x ∧ x ≤ 2 ^ 32 - 2) :
    (windowAfter xids).Pairwise (· ≤ ·) ∧ ∃ front rest, windowAfter xids = front :: rest ∧
      IsGreatest {n | ∀ x, 1 ≤ x → x ≤ n → x ∈ xids} front := by
  have hxids : ∀ x ∈ xids, x < xidBound := by
    intro x hx
    have := (h x hx).2
    unfold xidBound
    omega
  have hall : Contiguous xids (windowAfter xids) :=
    contiguous_new.foldl (List.forall_mem_nil _) hxids
  obtain ⟨front, rest, hwindow⟩ := List.exists_cons_of_ne_nil hall.line.ne_nil
  have hbelow := hall.below
  have hgap := hall.gap
  have hkept := hall.kept
  rw [hwindow, List.headD_cons] at hbelow hgap hkept
  refine ⟨hall.line.ascending, front, rest, hwindow, hbelow, fun n hn => ?_⟩
  -- the xid after the front would be in the window
  by_contra hlt
  have hnext : front + 1 ∈ xids := hn (front + 1) (by omega) (by omega)
  rcases hkept _ hnext with hle | hmem
  · omega
  · exact hgap hmem

/-- Calls 2 and 4 end first, call 2 reports twice. -/
theorem front_is_greatest_passed_gap :
    windowAfter [2, 4, 2, 1] = [2, 2, 4] ∧
      IsGreatest {n | ∀ x, 1 ≤ x → x ≤ n → x ∈ [2, 4, 2, 1]} 2 := by
  have hxids : ∀ x ∈ [2, 4, 2, 1], 1 ≤ x ∧ x ≤ 2 ^ 32 - 2 := by decide
  obtain ⟨-, front, rest, hwindow, hgreatest⟩ := front_is_greatest_passed hxids
  have hcomputed : windowAfter [2, 4, 2, 1] = [2, 2, 4] := by decide
  rw [hcomputed] at hwindow
  obtain ⟨rfl, -⟩ := List.cons.inj hwindow
  exact ⟨hcomputed, hgreatest⟩

end DistributedLab.Rpc
