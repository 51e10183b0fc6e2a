import DistributedLab.RsmNode
import Mathlib.Data.List.Find

/-!
# Who is the primary

`set_primary` depends on the history of a node: the old primary stays while it is a
member of the new view.  Since members keep their order along a history of views, a
node that ever takes its primary from a view takes the head of that view, and from
then on its primary is the head of every view.  A node that enters with a `_first`
argument further down the list keeps it instead, for as long as it stays a member.  So
does a node that skips a view in which its primary was missing: when the member has
re-joined by the next view it processes, it is the primary still, though no longer the
head.  What a node has for the primary is therefore counted from the last view it
skipped.
-/

namespace DistributedLab.Rsm

open Paxos Config

/-! ### Heads of consecutive views -/

/-- The first member of a view that is still there in the next view is the head of the next
    view. -/
theorem find?_nextView {mems next : List String} (h : NextView mems next) (hne : mems ≠ []) :
    (mems.find? fun m => isamember m next) = next.head? := by
  cases h with
  | added newM hnew =>
      obtain ⟨head, tail, rfl⟩ := List.exists_cons_of_ne_nil hne
      simp [addMember, isamember]
  | removed m hm =>
      rw [removeMember, List.head?_filter]
      refine List.find?_congr fun member hmember => ?_
      rw [Bool.eq_iff_iff]
      simp [hmember]

/-- A head that stays a member stays the head. -/
theorem head?_nextView {mems next : List String} (h : NextView mems next) {m : String}
    (hhead : mems.head? = some m) (hmem : m ∈ next) : next.head? = some m := by
  cases h with
  | added newM hnew => rw [addMember, List.head?_append, hhead]; rfl
  | removed other hother =>
      obtain ⟨tail, rfl⟩ := List.head?_eq_some_iff.mp hhead
      have hne : m ≠ other := by simpa [removeMember] using (List.mem_filter.mp hmem).2
      simp [removeMember, hne]

/-- What `set_primary` does along a history of views. -/
theorem setPrimary_cases {views : Nat → List String} {last vid : Nat} {primary p : String}
    (hist : ViewHistory views last) (hpos : 1 ≤ vid) (hvid : vid ≤ last)
    (h : setPrimary views primary vid = some p) :
    (primary ∈ views vid ∧ p = primary) ∨
      (primary ∉ views vid ∧ (views vid).head? = some p) := by
  unfold setPrimary at h
  by_cases hempty : views vid = []
  · simp [hempty] at h
  by_cases hmem : primary ∈ views vid
  · simp [hempty, hmem] at h
    exact .inl ⟨hmem, h.symm⟩
  · simp only [hempty, if_false, isamember_eq_true, hmem] at h
    refine .inr ⟨hmem, ?_⟩
    obtain ⟨before, rfl⟩ : ∃ before, vid = before + 1 := ⟨vid - 1, by omega⟩
    rw [Nat.add_sub_cancel] at h
    -- the view before is not empty, so it is not the one before the first
    have hne : views before ≠ [] := by
      intro hnil
      rw [hnil] at h
      cases h
    have hbefore : 1 ≤ before := by
      rcases Nat.eq_zero_or_pos before with rfl | hlt
      · exact absurd hist.zero hne
      · exact hlt
    rw [← find?_nextView (hist.next before hbefore hvid) hne]
    exact h

/-! ### The life of a node -/

section Life

variable {σ : Type} (views : Nat → List String) (first : String)

/-- The node has the views that `set_primary` looks at. -/
def Node.Knows (n : Node σ) (vid : Nat) : Prop :=
  getView n.acc vid = views vid ∧ getView n.acc (vid - 1) = views (vid - 1)

/-- The node was started with `_first` as its primary and has processed `commit_change` for some
    views, the last one `vid`.  `commit_change_wo` ignores a call that comes after the one for a
    later view, so a view may be skipped.  `since` is the last view that was not processed right
    after the one before it, and `held` the primary the node had then: `_first` at its first
    `commit_change`, what it had at the time of the call if it skipped views later on.  Between
    two calls that are not ignored the other threads of the node may change everything but
    `primary` and `vid_commit`, which only `commit_change_wo` writes. -/
inductive Node.Follows : Node σ → String → Nat → Nat → Prop
  | entered {n next : Node σ} {vid : Nat} (hfirst : n.primary = first) (hvid : n.vidCommit < vid)
      (hknows : n.Knows views vid) (hcommit : n.commitChangeWo vid = some next) :
      Follows next first vid vid
  | advanced {n between next : Node σ} {held : String} {since vid : Nat}
      (h : Follows n held since vid) (hprimary : between.primary = n.primary)
      (hvid : between.vidCommit = n.vidCommit) (hknows : between.Knows views (vid + 1))
      (hcommit : between.commitChangeWo (vid + 1) = some next) :
      Follows next held since (vid + 1)
  | skipped {n between next : Node σ} {held : String} {since vid later : Nat}
      (h : Follows n held since vid) (hskip : vid + 1 < later)
      (hprimary : between.primary = n.primary) (hvid : between.vidCommit = n.vidCommit)
      (hknows : between.Knows views later)
      (hcommit : between.commitChangeWo later = some next) : Follows next n.primary later later

/-- Some view that the node has processed since has the primary it held then at its head or not
    at all. -/
def Settled (held : String) (since vid : Nat) : Prop :=
  ∃ w, since ≤ w ∧ w ≤ vid ∧ (held ∉ views w ∨ (views w).head? = some held)

variable {views first} {held : String} {since : Nat}

theorem Node.commitChangeWo_of_lt {n next : Node σ} {vid : Nat} (hvid : n.vidCommit < vid)
    (hknows : n.Knows views vid) (h : n.commitChangeWo vid = some next) :
    next.vidCommit = vid ∧ setPrimary views n.primary vid = some next.primary := by
  rw [Node.commitChangeWo_eq, if_neg (Nat.not_le.mpr hvid)] at h
  obtain ⟨primary, hprimary, rfl⟩ := Option.map_eq_some_iff.mp h
  refine ⟨rfl, ?_⟩
  rw [← hprimary]
  simp only [setPrimary, hknows.1, hknows.2]

theorem Node.Follows.vidCommit {n : Node σ} {vid : Nat}
    (h : n.Follows views first held since vid) :
    n.vidCommit = vid ∧ since ≤ vid ∧ 1 ≤ since := by
  induction h with
  | entered hfirst hvid hknows hcommit =>
      exact ⟨(commitChangeWo_of_lt hvid hknows hcommit).1, le_refl _, by omega⟩
  | advanced h hprimary hvid hknows hcommit ih =>
      exact ⟨(commitChangeWo_of_lt (by omega) hknows hcommit).1, by omega, ih.2.2⟩
  | skipped h hskip hprimary hvid hknows hcommit ih =>
      exact ⟨(commitChangeWo_of_lt (by omega) hknows hcommit).1, le_refl _, by omega⟩

theorem Settled.mono {vid : Nat} (h : Settled views held since vid) :
    Settled views held since (vid + 1) := by
  obtain ⟨w, hsince, hw, hheld⟩ := h
  exact ⟨w, hsince, by omega, hheld⟩

/-- A node that still has the primary it held, when it processes one more view. -/
theorem settled_or_held {last vid : Nat} (hist : ViewHistory views last) {p : String}
    (hpos : 1 ≤ vid) (hvid : vid ≤ last) (hsince : since ≤ vid)
    (h : setPrimary views held vid = some p) :
    (Settled views held since vid ∧ (views vid).head? = some p) ∨
      (p = held ∧ held ∈ views vid ∧ (views vid).head? ≠ some held) := by
  rcases setPrimary_cases hist hpos hvid h with ⟨hmem, rfl⟩ | ⟨hmem, hhead⟩
  · by_cases hhead : (views vid).head? = some p
    · exact .inl ⟨⟨vid, hsince, le_refl _, .inr hhead⟩, hhead⟩
    · exact .inr ⟨rfl, hmem, hhead⟩
  · exact .inl ⟨⟨vid, hsince, le_refl _, .inl hmem⟩, hhead⟩

/-- The view at which a node starts to count. -/
theorem settled_or_held_first {last vid : Nat} (hist : ViewHistory views last) {p : String}
    (hpos : 1 ≤ vid) (hvid : vid ≤ last) (h : setPrimary views held vid = some p) :
    (Settled views held vid vid ∧ (views vid).head? = some p) ∨
      (¬ Settled views held vid vid ∧ p = held ∧ held ∈ views vid) := by
  rcases settled_or_held hist hpos hvid (le_refl _) h with h | ⟨hp, hmem, hhead⟩
  · exact .inl h
  · refine .inr ⟨?_, hp, hmem⟩
    rintro ⟨w, hlow, hhigh, hw⟩
    obtain rfl : w = vid := by omega
    exact hw.elim (fun hnot => hnot hmem) hhead

/-- **The primary of a node.**  Once the primary it held has been the head of a view or missing
    from one, its primary is the head of the current view; until then it is the one it held. -/
theorem Node.Follows.primary_eq {n : Node σ} {last vid : Nat} (hist : ViewHistory views last)
    (h : n.Follows views first held since vid) (hvid : vid ≤ last) :
    (Settled views held since vid ∧ (views vid).head? = some n.primary) ∨
      (¬ Settled views held since vid ∧ n.primary = held ∧ held ∈ views vid) := by
  induction h with
  | entered hfirst hlt hknows hcommit =>
      have hset := (commitChangeWo_of_lt hlt hknows hcommit).2
      rw [hfirst] at hset
      exact settled_or_held_first hist (by omega) hvid hset
  | advanced h hprimary hcommitted hknows hcommit ih =>
      obtain ⟨hvc, hsince, hpos⟩ := h.vidCommit
      have hset := (commitChangeWo_of_lt (by omega) hknows hcommit).2
      rw [hprimary] at hset
      rcases ih (by omega) with ⟨hsettled, hhead⟩ | ⟨hunsettled, hp, hmem⟩
      · -- the primary is the head of the previous view
        refine .inl ⟨hsettled.mono, ?_⟩
        rcases setPrimary_cases hist (by omega) hvid hset with ⟨hstays, hp⟩ | ⟨-, hp⟩
        · rw [hp]
          exact head?_nextView (hist.next _ (by omega) hvid) hhead hstays
        · exact hp
      · rw [hp] at hset
        rcases settled_or_held hist (by omega) hvid (hsince.trans (Nat.le_succ _)) hset with
          h | ⟨hp', hmem', hhead⟩
        · exact .inl h
        · refine .inr ⟨?_, hp', hmem'⟩
          rintro ⟨w, hlow, hhigh, hw⟩
          rcases Nat.lt_or_eq_of_le hhigh with hlt | rfl
          · exact hunsettled ⟨w, hlow, by omega, hw⟩
          · exact hw.elim (fun hnot => hnot hmem') hhead
  | skipped h hskip hprimary hcommitted hknows hcommit ih =>
      -- the views between may have moved the head, so nothing is known of the primary held
      obtain ⟨hvc, -, -⟩ := h.vidCommit
      have hset := (commitChangeWo_of_lt (by omega) hknows hcommit).2
      rw [hprimary] at hset
      exact settled_or_held_first hist (by omega) hvid hset

end Life

/-- **Primary agreement.**  Two nodes that have processed the current view have the same
    primary, a member of it, exactly when both have seen the primary they held at the head of
    a view or outside it, or neither has and they held the same one. -/
theorem primary_agreement_iff {σ : Type} {views : Nat → List String} {v : Nat}
    (hist : ViewHistory views v) {first₁ first₂ held₁ held₂ : String} {since₁ since₂ : Nat}
    {n₁ n₂ : Node σ} (h₁ : n₁.Follows views first₁ held₁ since₁ v)
    (h₂ : n₂.Follows views first₂ held₂ since₂ v) :
    (n₁.primary = n₂.primary ∧ n₁.primary ∈ views v ∧ n₂.primary ∈ views v) ↔
      ((Settled views held₁ since₁ v ∧ Settled views held₂ since₂ v) ∨
        (¬ Settled views held₁ since₁ v ∧ ¬ Settled views held₂ since₂ v ∧
          held₁ = held₂)) := by
  obtain ⟨-, hsince₁, -⟩ := h₁.vidCommit
  obtain ⟨-, hsince₂, -⟩ := h₂.vidCommit
  rcases h₁.primary_eq hist (le_refl v) with ⟨hsettled₁, hhead₁⟩ | ⟨hunsettled₁, hp₁, hmem₁⟩ <;>
    rcases h₂.primary_eq hist (le_refl v) with ⟨hsettled₂, hhead₂⟩ | ⟨hunsettled₂, hp₂, hmem₂⟩
  · have heq : n₁.primary = n₂.primary := Option.some.inj (hhead₁.symm.trans hhead₂)
    exact ⟨fun _ => .inl ⟨hsettled₁, hsettled₂⟩,
      fun _ => ⟨heq, List.mem_of_head? hhead₁, List.mem_of_head? hhead₂⟩⟩
  · constructor
    · rintro ⟨heq, -⟩
      -- what the second node held would be the head of the current view
      rw [heq, hp₂] at hhead₁
      exact absurd ⟨v, hsince₂, le_refl v, .inr hhead₁⟩ hunsettled₂
    · rintro (⟨-, h⟩ | ⟨h, -⟩)
      · exact absurd h hunsettled₂
      · exact absurd hsettled₁ h
  · constructor
    · rintro ⟨heq, -⟩
      rw [← heq, hp₁] at hhead₂
      exact absurd ⟨v, hsince₁, le_refl v, .inr hhead₂⟩ hunsettled₁
    · rintro (⟨h, -⟩ | ⟨-, h, -⟩)
      · exact absurd h hunsettled₁
      · exact absurd hsettled₂ h
  · rw [hp₁, hp₂]
    constructor
    · rintro ⟨heq, -⟩
      exact .inr ⟨hunsettled₁, hunsettled₂, heq⟩
    · rintro (⟨h, -⟩ | ⟨-, -, heq⟩)
      · exact absurd h hunsettled₁
      · exact ⟨heq, hmem₁, hmem₂⟩

/-! ### Concrete lives -/

/-- Three views; every later one is empty. -/
def threeViews (vid : Nat) : List String :=
  [[], ["a"], ["a", "b"], ["a", "b", "c"]].getD vid []

theorem threeViews_history : ViewHistory threeViews 3 where
  zero := rfl
  next := by
    intro vid hpos hlt
    obtain rfl | rfl : vid = 1 ∨ vid = 2 := by omega
    · exact .added "b" (by decide)
    · exact .added "c" (by decide)

/-- A started node whose acceptor has decided the three views. -/
def threeViewsNode (first me : String) : Node Unit where
  acc := (((Acceptor.blank me []).commit 1 "a ").commit 2 "a b ").commit 3 "a b c "
  upcalls := []
  myvid := 3
  mems := ["a", "b", "c"]
  changes := []
  svc := ()
  myvs := ⟨0, 1⟩
  lastMyvs := ⟨0, 0⟩
  primary := first
  insync := false
  inviewchange := true
  vidCommit := 0
  vidInsync := 0
  backups := []
  pc := .created

theorem threeViewsNode_knows (first me : String) (n : Node Unit)
    (h : n.acc = (threeViewsNode first me).acc) {vid : Nat} (hvid : vid ≤ 3) :
    n.Knows threeViews vid := by
  have hview : ∀ w, w ≤ 3 → getView n.acc w = threeViews w := by
    intro w hw
    rw [h]
    obtain rfl | rfl | rfl | rfl : w = 0 ∨ w = 1 ∨ w = 2 ∨ w = 3 := by omega
    · exact (by decide : members "" = [])
    · exact (by decide : members "a " = ["a"])
    · exact (by decide : members "a b " = ["a", "b"])
    · exact (by decide : members "a b c " = ["a", "b", "c"])
  exact ⟨hview vid hvid, hview (vid - 1) (by omega)⟩

/-- The first node processes the three views one by one. -/
theorem firstNode_follows :
    ∃ n : Node Unit, n.Follows threeViews "a" "a" 1 3 ∧ n.primary = "a" :=
  ⟨_, .advanced (.advanced (.entered (n := threeViewsNode "a" "a") rfl (by decide)
    (threeViewsNode_knows "a" "a" _ rfl (by decide)) rfl) rfl rfl
    (threeViewsNode_knows "a" "a" _ rfl (by decide)) rfl) rfl rfl
    (threeViewsNode_knows "a" "a" _ rfl (by decide)) rfl, rfl⟩

/-- Node `c` restarts with some current member as its `_first` argument and re-joins in the
    last view. -/
theorem rejoinedNode_follows {first : String} (h : first ∈ threeViews 3) :
    ∃ n : Node Unit, n.Follows threeViews first first 3 3 ∧ n.primary = first := by
  have hview := (threeViewsNode_knows first "c" (threeViewsNode first "c") rfl (le_refl 3)).1
  have hset : setPrimary (getView (threeViewsNode first "c").acc) first 3 = some first := by
    rw [setPrimary, hview, if_neg (by decide), if_pos (isamember_eq_true.mpr h)]
  have hzero : ¬ 3 ≤ (threeViewsNode first "c").vidCommit := Nat.not_succ_le_zero 2
  refine ⟨{ threeViewsNode first "c" with vidCommit := 3, inviewchange := true },
    .entered (n := threeViewsNode first "c") rfl (Nat.not_le.mp hzero)
      (threeViewsNode_knows first "c" _ rfl (le_refl 3)) ?_, rfl⟩
  rw [Node.commitChangeWo_eq, if_neg hzero]
  exact congrArg (Option.map _) hset

theorem primary_agreement_threeViews :
    ∃ n₁ n₂ : Node Unit, n₁.Follows threeViews "a" "a" 1 3 ∧
      n₂.Follows threeViews "a" "a" 3 3 ∧
      n₁.primary = n₂.primary ∧ n₁.primary ∈ threeViews 3 ∧ n₂.primary ∈ threeViews 3 := by
  obtain ⟨n₁, h₁, -⟩ := firstNode_follows
  obtain ⟨n₂, h₂, -⟩ := rejoinedNode_follows (by decide : "a" ∈ threeViews 3)
  refine ⟨n₁, n₂, h₁, h₂, (primary_agreement_iff threeViews_history h₁ h₂).mpr (.inl ⟨?_, ?_⟩)⟩
  · exact ⟨1, by decide, by decide, .inr rfl⟩
  · exact ⟨3, by decide, by decide, .inr rfl⟩

/-- Node `c` re-joins with `b` as its `_first` argument and takes `b` for the primary, while
    the first node has always had `a`. -/
theorem rejoined_node_keeps_first :
    ¬ ∀ (views : Nat → List String) (v : Nat), ViewHistory views v →
      ∀ (first₁ first₂ held₁ held₂ : String) (since₁ since₂ : Nat) (n₁ n₂ : Node Unit),
        first₁ ∈ views v → first₂ ∈ views v →
        n₁.Follows views first₁ held₁ since₁ v → n₂.Follows views first₂ held₂ since₂ v →
        n₁.primary = n₂.primary ∧ n₁.primary ∈ views v ∧ n₂.primary ∈ views v := by
  intro hclaim
  obtain ⟨n₁, h₁, hp₁⟩ := firstNode_follows
  obtain ⟨n₂, h₂, hp₂⟩ := rejoinedNode_follows (by decide : "b" ∈ threeViews 3)
  have heq := (hclaim threeViews 3 threeViews_history "a" "b" "a" "b" 1 3 n₁ n₂ (by decide)
    (by decide) h₁ h₂).1
  rw [hp₁, hp₂] at heq
  exact absurd heq (by decide)

end DistributedLab.Rsm
