import Mathlib.Order.Compare

/-!
# Finite maps with ordered keys

A map is the list of its entries in the strict order of their keys, so two maps with the
same entries are equal and a loop over a map meets the keys in their order.  Lookups
determine a map, and writing the entries of one map into another one overrides it.
-/

namespace DistributedLab

structure OrderedMap (κ ν : Type) [Ord κ] where
  entries : List (κ × ν)
  sorted : entries.Pairwise (fun a b => compare a.1 b.1 = .lt)

namespace OrderedMap

variable {κ ν : Type} [Ord κ]

@[ext] theorem ext_entries {m n : OrderedMap κ ν} (h : m.entries = n.entries) : m = n := by
  cases m
  cases n
  cases h
  rfl

instance [DecidableEq κ] [DecidableEq ν] : DecidableEq (OrderedMap κ ν) := fun m n =>
  decidable_of_iff (m.entries = n.entries) ⟨ext_entries, congrArg entries⟩

def empty : OrderedMap κ ν := ⟨[], .nil⟩

def size (m : OrderedMap κ ν) : Nat := m.entries.length

def lookup (k : κ) : List (κ × ν) → Option ν
  | [] => none
  | entry :: rest => if compare k entry.1 = .eq then some entry.2 else lookup k rest

def find? (m : OrderedMap κ ν) (k : κ) : Option ν := lookup k m.entries

def getD (m : OrderedMap κ ν) (k : κ) (v : ν) : ν := (m.find? k).getD v

/-- The keys of the map. -/
def Has (m : OrderedMap κ ν) (k : κ) : Prop := (m.find? k).isSome = true

instance (m : OrderedMap κ ν) (k : κ) : Decidable (m.Has k) :=
  inferInstanceAs (Decidable (_ = true))

/-- An entry with the same key is replaced. -/
def insertEntry (k : κ) (v : ν) : List (κ × ν) → List (κ × ν)
  | [] => [(k, v)]
  | entry :: rest =>
      match compare k entry.1 with
      | .lt => (k, v) :: entry :: rest
      | .eq => (k, v) :: rest
      | .gt => entry :: insertEntry k v rest

theorem mem_insertEntry {k : κ} {v : ν} {entry : κ × ν} {l : List (κ × ν)}
    (h : entry ∈ insertEntry k v l) : entry = (k, v) ∨ entry ∈ l := by
  induction l with
  | nil => exact .inl (List.mem_singleton.mp h)
  | cons first rest ih =>
      simp only [insertEntry] at h
      split at h
      · exact List.mem_cons.mp h
      · rcases List.mem_cons.mp h with heq | hrest
        · exact .inl heq
        · exact .inr (List.mem_cons_of_mem _ hrest)
      · rcases List.mem_cons.mp h with heq | hrest
        · exact .inr (heq ▸ List.mem_cons_self)
        · rcases ih hrest with heq | hmem
          · exact .inl heq
          · exact .inr (List.mem_cons_of_mem _ hmem)

theorem lookup_eq_none {k : κ} {l : List (κ × ν)} (h : ∀ entry ∈ l, compare k entry.1 = .lt) :
    lookup k l = none := by
  induction l with
  | nil => rfl
  | cons first rest ih =>
      have hfirst := h first List.mem_cons_self
      simp only [lookup, hfirst, reduceCtorEq, if_false]
      exact ih fun entry hmem => h entry (List.mem_cons_of_mem _ hmem)

@[simp] theorem find?_empty (k : κ) : (empty : OrderedMap κ ν).find? k = none := rfl

theorem insertEntry_ne_nil (k : κ) (v : ν) (l : List (κ × ν)) : insertEntry k v l ≠ [] := by
  cases l with
  | nil => exact List.cons_ne_nil _ _
  | cons first rest =>
      simp only [insertEntry]
      split <;> exact List.cons_ne_nil _ _

variable [Std.LawfulEqOrd κ]

theorem lookup_insertEntry_self (k : κ) (v : ν) (l : List (κ × ν)) :
    lookup k (insertEntry k v l) = some v := by
  induction l with
  | nil => simp [insertEntry, lookup]
  | cons first rest ih =>
      simp only [insertEntry]
      split
      case h_1 => simp [lookup]
      case h_2 => simp [lookup]
      case h_3 hgt => simp [lookup, hgt, ih]

theorem lookup_insertEntry_of_ne {k j : κ} (v : ν) (h : j ≠ k) (l : List (κ × ν)) :
    lookup j (insertEntry k v l) = lookup j l := by
  have hne : compare j k ≠ .eq := fun heq => h (Std.LawfulEqCmp.eq_of_compare heq)
  induction l with
  | nil => simp [insertEntry, lookup, hne]
  | cons first rest ih =>
      simp only [insertEntry]
      split
      case h_1 => simp [lookup, hne]
      case h_2 heq =>
        have hfirst : compare j first.1 ≠ .eq := by
          rw [← Std.LawfulEqCmp.eq_of_compare heq]
          exact hne
        simp [lookup, hne, hfirst]
      case h_3 => simp only [lookup, ih]

variable [Std.TransOrd κ]

theorem sorted_insertEntry (k : κ) (v : ν) {l : List (κ × ν)}
    (h : l.Pairwise (fun a b => compare a.1 b.1 = .lt)) :
    (insertEntry k v l).Pairwise (fun a b => compare a.1 b.1 = .lt) := by
  induction l with
  | nil => exact List.pairwise_singleton _ _
  | cons first rest ih =>
      obtain ⟨hfirst, hrest⟩ := List.pairwise_cons.mp h
      simp only [insertEntry]
      split
      case h_1 hlt =>
        refine List.pairwise_cons.mpr ⟨?_, h⟩
        intro entry hentry
        rcases List.mem_cons.mp hentry with rfl | hmem
        · exact hlt
        · exact Std.TransCmp.lt_trans hlt (hfirst entry hmem)
      case h_2 heq =>
        refine List.pairwise_cons.mpr ⟨?_, hrest⟩
        rw [Std.LawfulEqCmp.eq_of_compare heq]
        exact hfirst
      case h_3 hgt =>
        refine List.pairwise_cons.mpr ⟨?_, ih hrest⟩
        intro entry hentry
        rcases mem_insertEntry hentry with rfl | hmem
        · exact Std.OrientedCmp.gt_iff_lt.mp hgt
        · exact hfirst entry hmem

def insert (m : OrderedMap κ ν) (k : κ) (v : ν) : OrderedMap κ ν :=
  ⟨insertEntry k v m.entries, sorted_insertEntry k v m.sorted⟩

/-- The entries are written one after the other. -/
def insertAll (m : OrderedMap κ ν) (l : List (κ × ν)) : OrderedMap κ ν :=
  l.foldl (fun n entry => n.insert entry.1 entry.2) m

/-! ### Lookups -/

@[simp] theorem find?_insert_self (m : OrderedMap κ ν) (k : κ) (v : ν) :
    (m.insert k v).find? k = some v :=
  lookup_insertEntry_self k v m.entries

theorem find?_insert_of_ne (m : OrderedMap κ ν) {k j : κ} (v : ν) (h : j ≠ k) :
    (m.insert k v).find? j = m.find? j :=
  lookup_insertEntry_of_ne v h m.entries

@[simp] theorem getD_insert_self (m : OrderedMap κ ν) (k : κ) (v w : ν) :
    (m.insert k v).getD k w = v := by
  rw [getD, find?_insert_self, Option.getD_some]

theorem getD_insert_of_ne (m : OrderedMap κ ν) {k j : κ} (v w : ν) (h : j ≠ k) :
    (m.insert k v).getD j w = m.getD j w := by
  rw [getD, find?_insert_of_ne m v h, getD]

theorem has_insert_self (m : OrderedMap κ ν) (k : κ) (v : ν) : (m.insert k v).Has k := by
  rw [Has, find?_insert_self]
  rfl

theorem Has.insert {m : OrderedMap κ ν} {j : κ} (h : m.Has j) (k : κ) (v : ν) :
    (m.insert k v).Has j := by
  by_cases hj : j = k
  · rw [hj]
    exact m.has_insert_self k v
  · rw [Has, find?_insert_of_ne m v hj]
    exact h

theorem eq_of_lookup {l₁ l₂ : List (κ × ν)}
    (h₁ : l₁.Pairwise (fun a b => compare a.1 b.1 = .lt))
    (h₂ : l₂.Pairwise (fun a b => compare a.1 b.1 = .lt))
    (h : ∀ k, lookup k l₁ = lookup k l₂) : l₁ = l₂ := by
  induction l₁ generalizing l₂ with
  | nil =>
      cases l₂ with
      | nil => rfl
      | cons b t => simpa [lookup] using h b.1
  | cons a s ih =>
      cases l₂ with
      | nil => simpa [lookup] using h a.1
      | cons b t =>
          obtain ⟨ha, hs⟩ := List.pairwise_cons.mp h₁
          obtain ⟨hb, ht⟩ := List.pairwise_cons.mp h₂
          -- the smaller of the first keys would be missing in the other list
          have hkey : a.1 = b.1 := by
            cases hcmp : compare a.1 b.1 with
            | eq => exact Std.LawfulEqCmp.eq_of_compare hcmp
            | lt =>
                have hnone : lookup a.1 (b :: t) = none := lookup_eq_none <| by
                  intro entry hentry
                  rcases List.mem_cons.mp hentry with rfl | hmem
                  · exact hcmp
                  · exact Std.TransCmp.lt_trans hcmp (hb entry hmem)
                have hsome := h a.1
                rw [hnone] at hsome
                simp [lookup] at hsome
            | gt =>
                have hlt := Std.OrientedCmp.gt_iff_lt.mp hcmp
                have hnone : lookup b.1 (a :: s) = none := lookup_eq_none <| by
                  intro entry hentry
                  rcases List.mem_cons.mp hentry with rfl | hmem
                  · exact hlt
                  · exact Std.TransCmp.lt_trans hlt (ha entry hmem)
                have hsome := h b.1
                rw [hnone] at hsome
                simp [lookup] at hsome
          have hvalue : a.2 = b.2 := by simpa [lookup, hkey] using h a.1
          have htail : s = t := by
            refine ih hs ht fun k => ?_
            by_cases hk : compare k a.1 = .eq
            · rw [Std.LawfulEqCmp.eq_of_compare hk, lookup_eq_none ha, hkey, lookup_eq_none hb]
            · have hk' : compare k b.1 ≠ .eq := hkey ▸ hk
              simpa [lookup, hk, hk'] using h k
          rw [Prod.ext hkey hvalue, htail]

/-- Lookups determine the map. -/
theorem ext_find? {m n : OrderedMap κ ν} (h : ∀ k, m.find? k = n.find? k) : m = n :=
  ext_entries (eq_of_lookup m.sorted n.sorted h)

theorem insert_insert (m : OrderedMap κ ν) (k : κ) (v w : ν) :
    (m.insert k v).insert k w = m.insert k w := by
  apply ext_find?
  intro j
  by_cases hj : j = k
  · subst hj
    rw [find?_insert_self, find?_insert_self]
  · rw [find?_insert_of_ne _ _ hj, find?_insert_of_ne _ _ hj, find?_insert_of_ne _ _ hj]

/-! ### Counting entries -/

/-- The number of the values with the property `p`. -/
def countValues (m : OrderedMap κ ν) (p : ν → Bool) : Nat := m.entries.countP fun entry => p entry.2

omit [Std.LawfulEqOrd κ] in
theorem countP_insertEntry {k : κ} {l : List (κ × ν)} (v : ν) (p : ν → Bool)
    (h : l.Pairwise (fun a b => compare a.1 b.1 = .lt)) :
    (insertEntry k v l).countP (fun entry => p entry.2) + ((lookup k l).toList.countP p) =
      l.countP (fun entry => p entry.2) + [v].countP p := by
  induction l with
  | nil => simp [insertEntry, lookup, List.countP_cons]
  | cons first rest ih =>
      obtain ⟨hfirst, hrest⟩ := List.pairwise_cons.mp h
      cases hcmp : compare k first.1 with
      | lt =>
          have hnone : lookup k (first :: rest) = none := lookup_eq_none <| by
            intro entry hentry
            rcases List.mem_cons.mp hentry with rfl | hmem
            · exact hcmp
            · exact Std.TransCmp.lt_trans hcmp (hfirst entry hmem)
          simp [insertEntry, hcmp, hnone, List.countP_cons]
      | eq =>
          simp only [insertEntry, lookup, hcmp, if_true, List.countP_cons, Option.toList_some,
            List.countP_nil]
          omega
      | gt =>
          have hrest := ih hrest
          simp only [insertEntry, lookup, hcmp, List.countP_cons, reduceCtorEq, if_false]
          simp only [List.countP_cons] at hrest
          omega

/-- Writing an entry adds its value and takes the one that it replaces away. -/
theorem countValues_insert (m : OrderedMap κ ν) (k : κ) (v : ν) (p : ν → Bool) :
    (m.insert k v).countValues p + (m.find? k).toList.countP p =
      m.countValues p + [v].countP p :=
  countP_insertEntry v p m.sorted

omit [Std.LawfulEqOrd κ] [Std.TransOrd κ] in
theorem countValues_pos {m : OrderedMap κ ν} {k : κ} {v : ν} {p : ν → Bool}
    (h : m.find? k = some v) (hp : p v = true) : 0 < m.countValues p := by
  have hmem : ∀ {l : List (κ × ν)}, lookup k l = some v → ∃ entry ∈ l, entry.2 = v := by
    intro l hlookup
    induction l with
    | nil => cases hlookup
    | cons first rest ih =>
        simp only [lookup] at hlookup
        split_ifs at hlookup
        · exact ⟨first, List.mem_cons_self, Option.some.inj hlookup⟩
        · obtain ⟨entry, hentry, hv⟩ := ih hlookup
          exact ⟨entry, List.mem_cons_of_mem _ hentry, hv⟩
  obtain ⟨entry, hentry, rfl⟩ := hmem h
  exact List.countP_pos_iff.mpr ⟨entry, hentry, hp⟩

/-! ### Writing one map into another -/

/-- Writing an entry changes nothing exactly if it is there already. -/
theorem insert_eq_self_iff (m : OrderedMap κ ν) (k : κ) (v : ν) :
    m.insert k v = m ↔ m.find? k = some v := by
  constructor
  · intro heq
    rw [← heq, find?_insert_self]
  · intro hfind
    apply ext_find?
    intro j
    by_cases hj : j = k
    · rw [hj, find?_insert_self, hfind]
    · rw [find?_insert_of_ne m v hj]

theorem find?_insertAll_of_sorted (m : OrderedMap κ ν) {l : List (κ × ν)}
    (h : l.Pairwise (fun a b => compare a.1 b.1 = .lt)) (k : κ) :
    (m.insertAll l).find? k = (lookup k l).or (m.find? k) := by
  induction l generalizing m with
  | nil => rfl
  | cons first rest ih =>
      obtain ⟨hfirst, hrest⟩ := List.pairwise_cons.mp h
      show ((m.insert first.1 first.2).insertAll rest).find? k = _
      rw [ih (m.insert first.1 first.2) hrest]
      by_cases hk : compare k first.1 = .eq
      · rw [Std.LawfulEqCmp.eq_of_compare hk, lookup_eq_none hfirst]
        simp [lookup]
      · have hne : k ≠ first.1 := by
          rintro rfl
          exact hk Std.ReflCmp.compare_self
        simp only [lookup, hk, if_false]
        rw [find?_insert_of_ne m first.2 hne]

theorem find?_insertAll (m n : OrderedMap κ ν) (k : κ) :
    (m.insertAll n.entries).find? k = (n.find? k).or (m.find? k) :=
  find?_insertAll_of_sorted m n.sorted k

theorem empty_insertAll (n : OrderedMap κ ν) : empty.insertAll n.entries = n := by
  apply ext_find?
  intro k
  rw [find?_insertAll, find?_empty, Option.or_none]

/-- A map written over another one replaces it exactly when it has all the keys of the other. -/
theorem insertAll_eq_iff (m n : OrderedMap κ ν) :
    m.insertAll n.entries = n ↔ ∀ k, m.Has k → n.Has k := by
  constructor
  · intro heq k hk
    have hfind := find?_insertAll m n k
    rw [heq] at hfind
    unfold Has at hk ⊢
    rw [hfind]
    cases hn : n.find? k <;> simp [hk]
  · intro hkeys
    apply ext_find?
    intro k
    rw [find?_insertAll]
    cases hn : n.find? k with
    | some v => rfl
    | none =>
        have hnot : ¬ n.Has k := by simp [Has, hn]
        have hm : ¬ m.Has k := fun hk => hnot (hkeys k hk)
        simpa [Has] using hm

end OrderedMap

end DistributedLab
