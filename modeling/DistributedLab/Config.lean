import DistributedLab.PaxosLog

/-!
# Views

`class config` of `config.cc` as far as it computes with views: a view is the list
of its members, a Paxos value is that list as text, and the view of an instance is
decoded from the value that the acceptor holds for it.

`add` appends the new member to the current view and `remove_wo` filters a member
out, so along a history of views the order of the members never changes.
-/

namespace DistributedLab.Config

open TextStream Paxos

/-! ### Views as text -/

/-- The loop `while (ist >> m)` of `members`. -/
def membersLoop : Nat → String → IStream → List String
  | 0, _, _ => []
  | fuel + 1, m, ist =>
      let word := ist.readString m
      if word.2.fail then [] else word.1 :: membersLoop fuel word.1 word.2

/-- `config::members`.  Every word takes a character, so the length of the text is enough
    fuel. -/
def members (value : String) : List String :=
  membersLoop (value.toList.length + 1) "" (.on value.toList)

/-- `config::value`. -/
def value (m : List String) : String :=
  String.ofList (m.flatMap fun member => member.toList ++ [' '])

@[simp] theorem members_empty : members "" = [] := by decide

/-- `get_view_wo`: the members of the view that an instance decided. -/
def getView (acc : Acceptor) (inst : Nat) : List String := members (acc.value inst)

/-- `ismember`. -/
def ismember (acc : Acceptor) (m : String) (vid : Nat) : Bool := isamember m (getView acc vid)

/-- No value is decided for instance 0, so its view is empty. -/
theorem ismember_zero {acc : Acceptor} (h : acc.values 0 = none) (m : String) :
    ismember acc m 0 = false := by
  simp [ismember, getView, Acceptor.value, h, isamember]

theorem membersLoop_eq_readWords (fuel : Nat) (m : String) (ist : IStream) :
    membersLoop fuel m ist = ist.readWords fuel m := by
  induction fuel generalizing m ist with
  | zero => rfl
  | succ fuel ih => rw [membersLoop, IStream.readWords, ih]

theorem members_eq_words (v : String) : members v = words v.toList :=
  membersLoop_eq_readWords ..

/-- `members` reads back what `value` writes. -/
theorem members_value {view : List String} (hview : ∀ m ∈ view, IsWord m) :
    members (value view) = view := by
  rw [members_eq_words]
  induction view with
  | nil => exact words_nil
  | cons first view ih =>
      obtain ⟨hfirst, hrest⟩ := List.forall_mem_cons.mp hview
      have htext : (value (first :: view)).toList = first.toList ++ ' ' :: (value view).toList := by
        simp [value]
      rw [htext, words_word hfirst (by decide), ih hrest]

/-- The name of the first node, which is the value of the first view. -/
theorem members_word {m : String} (hm : IsWord m) : members m = [m] := by
  rw [members_eq_words, words_last hm]

/-- `>>` yields a word or fails. -/
theorem isWord_of_mem_members {v m : String} (h : m ∈ members v) : IsWord m := by
  rw [members_eq_words] at h
  exact IStream.isWord_of_mem_readWords h

/-! ### Changes of the view -/

/-- The view that `add` proposes. -/
def addMember (mems : List String) (newM : String) : List String := mems ++ [newM]

/-- The view that `remove_wo` proposes. -/
def removeMember (mems : List String) (m : String) : List String :=
  mems.filter fun member => member ≠ m

/-- Consecutive views: one member added or one removed. -/
inductive NextView (mems : List String) : List String → Prop
  | added (newM : String) (h : newM ∉ mems) : NextView mems (addMember mems newM)
  | removed (m : String) (h : m ∈ mems) : NextView mems (removeMember mems m)

/-- A history of views up to `last`; view 0 is the empty one before the first. -/
structure ViewHistory (views : Nat → List String) (last : Nat) : Prop where
  zero : views 0 = []
  next : ∀ vid, 1 ≤ vid → vid < last → NextView (views vid) (views (vid + 1))

end DistributedLab.Config
