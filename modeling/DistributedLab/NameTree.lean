import Mathlib.Data.List.Induction
import Mathlib.Data.Option.Basic

/-!
# Trees with names

Nodes with named edges, as directories have them.  A path is a list of names, and `resolve` follows
it from a node.  In a tree every node but the root is the end of exactly one edge, and every node is
reached from the root; so it has exactly one path.

A tree stays a tree when a new node is put below one of its nodes, and when a node is taken away
that has nothing below it.
-/

namespace DistributedLab.NameTree

variable {ι : Type u} {ν : Type v}

/-- The node that a path leads to. -/
def resolve (child : ι → ν → Option ι) : ι → List ν → Option ι
  | node, [] => some node
  | node, name :: path => (child node name).bind (resolve child · path)

theorem resolve_append (child : ι → ν → Option ι) (start : ι) (path more : List ν) :
    resolve child start (path ++ more) =
      (resolve child start path).bind (resolve child · more) := by
  induction path generalizing start with
  | nil => rfl
  | cons name path ih =>
      simp only [List.cons_append, resolve, Option.bind_assoc]
      exact Option.bind_congr fun next _ => ih next

theorem resolve_concat {child : ι → ν → Option ι} {start node : ι} {path : List ν} {name : ν}
    (h : resolve child start (path ++ [name]) = some node) :
    ∃ parent, resolve child start path = some parent ∧ child parent name = some node := by
  rw [resolve_append] at h
  obtain ⟨parent, hparent, hlast⟩ := Option.bind_eq_some_iff.mp h
  refine ⟨parent, hparent, ?_⟩
  simpa only [resolve, Option.bind_fun_some] using hlast

structure IsTree (root : ι) (node : ι → Prop) (child : ι → ν → Option ι) : Prop where
  rooted : node root
  edge : ∀ {p name c}, child p name = some c → node p ∧ node c
  parent : ∀ {p name c p' name'}, child p name = some c → child p' name' = some c →
    p = p' ∧ name = name'
  top : ∀ {p name}, child p name ≠ some root
  reached : ∀ {n}, node n → ∃ path, resolve child root path = some n

section Trees

variable {root p new leaf : ι} {name : ν} {node node' : ι → Prop} {child child' : ι → ν → Option ι}

/-- Two paths to one node are the same, from their ends to the root. -/
theorem IsTree.path_unique (h : IsTree root node child) {n : ι} {path path' : List ν}
    (hpath : resolve child root path = some n) (hpath' : resolve child root path' = some n) :
    path = path' := by
  induction path using List.reverseRecOn generalizing n path' with
  | nil =>
      cases hpath
      rcases List.eq_nil_or_concat path' with rfl | ⟨front, last, rfl⟩
      · rfl
      · rw [List.concat_eq_append] at hpath'
        obtain ⟨q, -, hlast⟩ := resolve_concat hpath'
        exact absurd hlast h.top
  | append_singleton front last ih =>
      obtain ⟨q, hfront, hlast⟩ := resolve_concat hpath
      rcases List.eq_nil_or_concat path' with rfl | ⟨front', last', rfl⟩
      · cases hpath'
        exact absurd hlast h.top
      · rw [List.concat_eq_append] at hpath' ⊢
        obtain ⟨q', hfront', hlast'⟩ := resolve_concat hpath'
        obtain ⟨rfl, rfl⟩ := h.parent hlast hlast'
        rw [ih hfront hfront']

theorem IsTree.existsUnique_path (h : IsTree root node child) {n : ι} (hn : node n) :
    ∃! path, resolve child root path = some n := by
  obtain ⟨path, hpath⟩ := h.reached hn
  exact ⟨path, hpath, fun _ hother => h.path_unique hother hpath⟩

theorem resolve_mono (hchild : ∀ q l c, child q l = some c → child' q l = some c) {start n : ι}
    {path : List ν} (h : resolve child start path = some n) :
    resolve child' start path = some n := by
  induction path generalizing start with
  | nil => exact h
  | cons name path ih =>
      obtain ⟨next, hnext, hrest⟩ := Option.bind_eq_some_iff.mp h
      exact Option.bind_eq_some_iff.mpr ⟨next, hchild start name next hnext, ih hrest⟩

/-- A new node below `p`. -/
theorem IsTree.graft (h : IsTree root node child) (hp : node p) (hname : child p name = none)
    (hnew : ¬ node new) (hnode : ∀ n, node' n ↔ node n ∨ n = new)
    (hedge : child' p name = some new)
    (hothers : ∀ q l, ¬ (q = p ∧ l = name) → child' q l = child q l) :
    IsTree root node' child' := by
  have hcases : ∀ {q l c}, child' q l = some c → c = new ∧ q = p ∧ l = name ∨
      child q l = some c := by
    intro q l c hc
    by_cases hq : q = p ∧ l = name
    · obtain ⟨rfl, rfl⟩ := hq
      exact .inl ⟨Option.some.inj (hc.symm.trans hedge), rfl, rfl⟩
    · exact .inr (hothers q l hq ▸ hc)
  have hmono : ∀ q l c, child q l = some c → child' q l = some c := by
    intro q l c hc
    rw [hothers q l, hc]
    rintro ⟨rfl, rfl⟩
    rw [hname] at hc
    cases hc
  refine ⟨(hnode root).mpr (.inl h.rooted), ?_, ?_, ?_, ?_⟩
  · intro q l c hc
    rcases hcases hc with ⟨rfl, rfl, -⟩ | hold
    · exact ⟨(hnode _).mpr (.inl hp), (hnode _).mpr (.inr rfl)⟩
    · exact ⟨(hnode q).mpr (.inl (h.edge hold).1), (hnode c).mpr (.inl (h.edge hold).2)⟩
  · intro q l c q' l' hc hc'
    rcases hcases hc with ⟨rfl, rfl, rfl⟩ | hold
    · rcases hcases hc' with ⟨-, rfl, rfl⟩ | hold'
      · exact ⟨rfl, rfl⟩
      · exact absurd (h.edge hold').2 hnew
    · rcases hcases hc' with ⟨rfl, -⟩ | hold'
      · exact absurd (h.edge hold).2 hnew
      · exact h.parent hold hold'
  · intro q l hc
    rcases hcases hc with ⟨rfl, -⟩ | hold
    · exact hnew h.rooted
    · exact h.top hold
  · intro n hn
    rcases (hnode n).mp hn with hold | rfl
    · obtain ⟨path, hpath⟩ := h.reached hold
      exact ⟨path, resolve_mono hmono hpath⟩
    · obtain ⟨path, hpath⟩ := h.reached hp
      refine ⟨path ++ [name], ?_⟩
      rw [resolve_append, resolve_mono hmono hpath]
      simp only [Option.bind_some, resolve, hedge]

/-- A node with nothing below it is taken away. -/
theorem IsTree.prune (h : IsTree root node child) (hleaf : child p name = some leaf)
    (hbelow : ∀ l, child leaf l = none) (hnode : ∀ n, node' n ↔ node n ∧ n ≠ leaf)
    (hedge : child' p name = none)
    (hothers : ∀ q l, ¬ (q = p ∧ l = name) → child' q l = child q l) :
    IsTree root node' child' := by
  have hcases : ∀ {q l c}, child' q l = some c → child q l = some c ∧ ¬ (q = p ∧ l = name) := by
    intro q l c hc
    by_cases hq : q = p ∧ l = name
    · obtain ⟨rfl, rfl⟩ := hq
      rw [hedge] at hc
      cases hc
    · exact ⟨hothers q l hq ▸ hc, hq⟩
  -- a path to another node does not pass the leaf
  have hpaths : ∀ {path start n}, resolve child start path = some n → n ≠ leaf →
      resolve child' start path = some n := by
    intro path
    induction path with
    | nil => exact fun hpath _ => hpath
    | cons l path ih =>
        intro start n hpath hn
        obtain ⟨next, hnext, hrest⟩ := Option.bind_eq_some_iff.mp hpath
        have hother : ¬ (start = p ∧ l = name) := by
          rintro ⟨rfl, rfl⟩
          obtain rfl := Option.some.inj (hnext.symm.trans hleaf)
          cases path with
          | nil => exact hn (Option.some.inj hrest).symm
          | cons l' path =>
              rw [resolve, hbelow l'] at hrest
              cases hrest
        refine Option.bind_eq_some_iff.mpr ⟨next, ?_, ih hrest hn⟩
        rw [hothers start l hother, hnext]
  refine ⟨(hnode root).mpr ⟨h.rooted, fun heq => h.top (heq ▸ hleaf)⟩, ?_, ?_, ?_, ?_⟩
  · intro q l c hc
    obtain ⟨hold, hother⟩ := hcases hc
    refine ⟨(hnode q).mpr ⟨(h.edge hold).1, ?_⟩, (hnode c).mpr ⟨(h.edge hold).2, ?_⟩⟩
    · rintro rfl
      rw [hbelow l] at hold
      cases hold
    · rintro rfl
      exact hother (h.parent hold hleaf)
  · intro q l c q' l' hc hc'
    exact h.parent (hcases hc).1 (hcases hc').1
  · intro q l hc
    exact h.top (hcases hc).1
  · intro n hn
    obtain ⟨hold, hne⟩ := (hnode n).mp hn
    obtain ⟨path, hpath⟩ := h.reached hold
    exact ⟨path, hpaths hpath hne⟩

end Trees

end DistributedLab.NameTree
