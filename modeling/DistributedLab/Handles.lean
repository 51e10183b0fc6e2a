import DistributedLab.Transition
import Mathlib.Algebra.Order.Group.Int
import Mathlib.Data.List.Count
import Mathlib.Logic.Function.Basic

/-!
# Handles and the connections they share

`handle_mgr` keeps one `hinfo` for every address and counts the handles that refer to it.  An
`hinfo` is given up when a view change deletes the address or when `safebind` could not bind;
as long as handles refer to it, it is only marked, and the last of them takes it away.

Removal finds the `hinfo` by its address again, and an address may get another `hinfo` later, so
the model keeps the `hinfo`s behind pointers.  A pointer that has been freed may be given out
again.
-/

namespace DistributedLab.Handles

open Transition

abbrev Ptr := Nat

/-- `struct hinfo`.  `cl` is the client once bound, `clMutex` the handle that holds the mutex. -/
structure Hinfo where
  cl : Option Nat
  refcnt : Int
  del : Bool
  m : String
  clMutex : Option Nat
deriving DecidableEq, Repr

/-- `class handle_mgr`, with the `hinfo`s that are allocated. -/
structure HandleMgr where
  hmap : String → Option Ptr
  heap : Ptr → Option Hinfo

def HandleMgr.setInfo (mgr : HandleMgr) (h : Ptr) (info : Hinfo) : HandleMgr :=
  { mgr with heap := Function.update mgr.heap h (some info) }

/-- A new `hinfo` at `h` for the address `m`. -/
def HandleMgr.insert (mgr : HandleMgr) (m : String) (h : Ptr) : HandleMgr where
  hmap := Function.update mgr.hmap m (some h)
  heap := Function.update mgr.heap h
    (some { cl := none, refcnt := 1, del := false, m := m, clMutex := none })

/-- `hmap.erase(m)` and `delete h`. -/
def HandleMgr.erase (mgr : HandleMgr) (m : String) (h : Ptr) : HandleMgr where
  hmap := Function.update mgr.hmap m none
  heap := Function.update mgr.heap h none

/-- `handle_mgr::get_handle`; `fresh` is what `new` returns.  Here and below `none` is the use of
    a pointer that is not allocated, or a `fresh` that is. -/
def HandleMgr.getHandle (mgr : HandleMgr) (m : String) (fresh : Ptr) :
    Option (HandleMgr × Option Ptr) :=
  match mgr.hmap m with
  | none => if mgr.heap fresh = none then some (mgr.insert m fresh, some fresh) else none
  | some h =>
      match mgr.heap h with
      | none => none
      | some info =>
          if !info.del then
            some (mgr.setInfo h { info with refcnt := info.refcnt + 1 }, some h)
          else some (mgr, none)

/-- `handle_mgr::delete_handle_wo`. -/
def HandleMgr.deleteHandleWo (mgr : HandleMgr) (m : String) : Option HandleMgr :=
  match mgr.hmap m with
  | none => some mgr
  | some h =>
      match mgr.heap h with
      | none => none
      | some info =>
          if info.refcnt = 0 then some (mgr.erase m h)
          else some (mgr.setInfo h { info with del := true })

/-- `handle_mgr::delete_handle`. -/
def HandleMgr.deleteHandle (mgr : HandleMgr) (m : String) : Option HandleMgr :=
  mgr.deleteHandleWo m

/-- `handle_mgr::done_handle`. -/
def HandleMgr.doneHandle (mgr : HandleMgr) (h : Ptr) : Option HandleMgr :=
  match mgr.heap h with
  | none => none
  | some info =>
      let mgr := mgr.setInfo h { info with refcnt := info.refcnt - 1 }
      if info.refcnt - 1 = 0 ∧ info.del = true then mgr.deleteHandleWo info.m else some mgr

/-- `class handle`; `id` tells the objects apart. -/
structure Handle where
  id : Nat
  h : Option Ptr
deriving DecidableEq, Repr

/-- The handle manager of a process and its live handles. -/
structure Process where
  mgr : HandleMgr
  handles : List Handle

def Process.find (s : Process) (id : Nat) : Option Handle :=
  s.handles.find? fun handle => handle.id == id

/-- The number of live handles that refer to `h`. -/
def Process.refs (s : Process) (h : Ptr) : Nat :=
  s.handles.countP fun handle => handle.h == some h

/-- `handle::handle`. -/
def Process.construct (s : Process) (id : Nat) (m : String) (fresh : Ptr) : Option Process :=
  match s.mgr.getHandle m fresh with
  | none => none
  | some (mgr, h) => some { mgr := mgr, handles := ⟨id, h⟩ :: s.handles }

/-- `handle::~handle`. -/
def Process.destroy (s : Process) (handle : Handle) : Option Process :=
  match handle.h with
  | none => some { s with handles := s.handles.erase handle }
  | some h =>
      match s.mgr.doneHandle h with
      | none => none
      | some mgr => some { mgr := mgr, handles := s.handles.erase handle }

/-- `handle::safebind` up to the call of `bind`, which is made with the mutex held.  The other
    paths return NULL or the bound client at once.  `none` also if the mutex is taken. -/
def Process.safebind (s : Process) (handle : Handle) : Option Process :=
  match handle.h with
  | none => some s
  | some h =>
      match s.mgr.heap h with
      | none => none
      | some info =>
          if info.clMutex ≠ none then none
          else if info.del then some s
          else if info.cl ≠ none then some s
          else some { s with mgr := s.mgr.setInfo h { info with clMutex := some handle.id } }

/-- `handle::safebind` after `bind` has returned; `none` for `cl` is a failure. -/
def Process.bound (s : Process) (handle : Handle) (cl : Option Nat) : Option Process :=
  match handle.h with
  | none => none
  | some h =>
      match s.mgr.heap h with
      | none => none
      | some info =>
          if info.clMutex = some handle.id then
            match cl with
            | none => some { s with
                mgr := s.mgr.setInfo h { info with del := true, clMutex := none } }
            | some cl => some { s with
                mgr := s.mgr.setInfo h { info with cl := some cl, clMutex := none } }
          else none

/-- Does the handle wait for its `bind`? -/
def Process.binding (s : Process) (handle : Handle) : Bool :=
  match handle.h.bind s.mgr.heap with
  | none => false
  | some info => info.clMutex == some handle.id

inductive Action where
  | construct (id : Nat) (m : String) (fresh : Ptr)
  | destroy (id : Nat)
  | safebind (id : Nat)
  | bound (id : Nat) (cl : Option Nat)
  | deleteHandle (m : String)
deriving DecidableEq, Repr

def Process.step (s : Process) : Action → Option Process
  | .construct id m fresh => if s.find id = none then s.construct id m fresh else none
  | .destroy id =>
      match s.find id with
      | none => none
      | some handle => if s.binding handle then none else s.destroy handle
  | .safebind id =>
      match s.find id with
      | none => none
      | some handle => s.safebind handle
  | .bound id cl =>
      match s.find id with
      | none => none
      | some handle => s.bound handle cl
  | .deleteHandle m => (s.mgr.deleteHandle m).map fun mgr => { s with mgr := mgr }

def Process.initial : Process where
  mgr := { hmap := fun _ => none, heap := fun _ => none }
  handles := []

def handleManager : System Process Action where
  init := fun s => s = Process.initial
  step := Process.step

/-! ### What the manager keeps -/

/-- Addresses and `hinfo`s belong together, and every `hinfo` counts the references to it. -/
structure HandleMgr.Linked (mgr : HandleMgr) (refs : Ptr → Nat) : Prop where
  entry : ∀ {m h}, mgr.hmap m = some h → ∃ info, mgr.heap h = some info ∧ info.m = m
  owned : ∀ {h info}, mgr.heap h = some info → mgr.hmap info.m = some h
  refcnt : ∀ {h info}, mgr.heap h = some info → info.refcnt = refs h
  live : ∀ {h}, 0 < refs h → ∃ info, mgr.heap h = some info
  marked : ∀ {h info}, mgr.heap h = some info → info.del = true → 0 < refs h

section Linked

variable {mgr : HandleMgr} {refs refs' : Ptr → Nat} {m : String} {h q : Ptr}
  {info info' : Hinfo}

theorem HandleMgr.heap_setInfo :
    (mgr.setInfo h info).heap q = if q = h then some info else mgr.heap q :=
  Function.update_apply ..

theorem HandleMgr.heap_insert :
    (mgr.insert m h).heap q =
      if q = h then some { cl := none, refcnt := 1, del := false, m := m, clMutex := none }
      else mgr.heap q :=
  Function.update_apply ..

theorem HandleMgr.hmap_insert {name : String} :
    (mgr.insert m h).hmap name = if name = m then some h else mgr.hmap name :=
  Function.update_apply ..

theorem HandleMgr.heap_erase : (mgr.erase m h).heap q = if q = h then none else mgr.heap q :=
  Function.update_apply ..

theorem HandleMgr.hmap_erase {name : String} :
    (mgr.erase m h).hmap name = if name = m then none else mgr.hmap name :=
  Function.update_apply ..

theorem HandleMgr.Linked.refs_eq_zero (hlinked : mgr.Linked refs) (hnone : mgr.heap h = none) :
    refs h = 0 := by
  by_contra hne
  obtain ⟨info, hinfo⟩ := hlinked.live (Nat.pos_of_ne_zero hne)
  rw [hnone] at hinfo
  cases hinfo

/-- Two addresses do not share an `hinfo`. -/
theorem HandleMgr.Linked.entry_unique (hlinked : mgr.Linked refs) {name : String}
    (hm : mgr.hmap m = some h) (hname : mgr.hmap name = some h) : name = m := by
  obtain ⟨info, hinfo, rfl⟩ := hlinked.entry hm
  obtain ⟨other, hother, rfl⟩ := hlinked.entry hname
  rw [Option.some.inj (hother.symm.trans hinfo)]

/-- An `hinfo` changes and keeps its address; only references to it come or go. -/
theorem HandleMgr.Linked.setInfo (hlinked : mgr.Linked refs) (hinfo : mgr.heap h = some info)
    (hm : info'.m = info.m) (hcount : info'.refcnt = refs' h)
    (hmarked : info'.del = true → 0 < refs' h) (hother : ∀ q, q ≠ h → refs' q = refs q) :
    (mgr.setInfo h info').Linked refs' := by
  constructor
  · intro name q hentry
    obtain ⟨i, hi, hname⟩ := hlinked.entry hentry
    rw [HandleMgr.heap_setInfo]
    split_ifs with heq
    · subst heq
      obtain rfl := Option.some.inj (hinfo.symm.trans hi)
      exact ⟨info', rfl, hm.trans hname⟩
    · exact ⟨i, hi, hname⟩
  · intro q i hq
    rw [HandleMgr.heap_setInfo] at hq
    split_ifs at hq with heq
    · obtain rfl := Option.some.inj hq
      rw [heq, hm]
      exact hlinked.owned hinfo
    · exact hlinked.owned hq
  · intro q i hq
    rw [HandleMgr.heap_setInfo] at hq
    split_ifs at hq with heq
    · obtain rfl := Option.some.inj hq
      rw [heq]
      exact hcount
    · rw [hother q heq]
      exact hlinked.refcnt hq
  · intro q hq
    rw [HandleMgr.heap_setInfo]
    split_ifs with heq
    · exact ⟨info', rfl⟩
    · rw [hother q heq] at hq
      exact hlinked.live hq
  · intro q i hq hdel
    rw [HandleMgr.heap_setInfo] at hq
    split_ifs at hq with heq
    · obtain rfl := Option.some.inj hq
      rw [heq]
      exact hmarked hdel
    · rw [hother q heq]
      exact hlinked.marked hq hdel

/-- No reference comes or goes. -/
theorem HandleMgr.Linked.setInfo_kept (hlinked : mgr.Linked refs) (hinfo : mgr.heap h = some info)
    (hm : info'.m = info.m) (hcount : info'.refcnt = info.refcnt)
    (hmarked : info'.del = true → 0 < refs h) : (mgr.setInfo h info').Linked refs :=
  hlinked.setInfo hinfo hm (hcount.trans (hlinked.refcnt hinfo)) hmarked fun _ _ => rfl

theorem HandleMgr.Linked.insert (hlinked : mgr.Linked refs) (hentry : mgr.hmap m = none)
    (hfresh : mgr.heap h = none) (hcount : refs' h = refs h + 1)
    (hother : ∀ q, q ≠ h → refs' q = refs q) : (mgr.insert m h).Linked refs' := by
  constructor
  · intro name q hq
    rw [HandleMgr.hmap_insert] at hq
    rw [HandleMgr.heap_insert]
    split_ifs at hq with hname
    · rw [if_pos (Option.some.inj hq).symm]
      exact ⟨_, rfl, hname.symm⟩
    · obtain ⟨i, hi, hm⟩ := hlinked.entry hq
      have hne : q ≠ h := fun heq => by
        rw [heq, hfresh] at hi
        cases hi
      rw [if_neg hne]
      exact ⟨i, hi, hm⟩
  · intro q i hq
    rw [HandleMgr.heap_insert] at hq
    rw [HandleMgr.hmap_insert]
    split_ifs at hq with heq
    · obtain rfl := Option.some.inj hq
      rw [if_pos rfl, heq]
    · have howned := hlinked.owned hq
      have hname : i.m ≠ m := fun hm => by
        rw [hm, hentry] at howned
        cases howned
      rw [if_neg hname]
      exact howned
  · intro q i hq
    rw [HandleMgr.heap_insert] at hq
    split_ifs at hq with heq
    · obtain rfl := Option.some.inj hq
      rw [heq, hcount, hlinked.refs_eq_zero hfresh]
      rfl
    · rw [hother q heq]
      exact hlinked.refcnt hq
  · intro q hq
    rw [HandleMgr.heap_insert]
    split_ifs with heq
    · exact ⟨_, rfl⟩
    · rw [hother q heq] at hq
      exact hlinked.live hq
  · intro q i hq hdel
    rw [HandleMgr.heap_insert] at hq
    split_ifs at hq with heq
    · obtain rfl := Option.some.inj hq
      cases hdel
    · rw [hother q heq]
      exact hlinked.marked hq hdel

theorem HandleMgr.Linked.erase (hlinked : mgr.Linked refs) (hentry : mgr.hmap m = some h)
    (hzero : refs' h = 0) (hother : ∀ q, q ≠ h → refs' q = refs q) :
    (mgr.erase m h).Linked refs' := by
  have hheap : ∀ {q i}, (mgr.erase m h).heap q = some i → q ≠ h ∧ mgr.heap q = some i := by
    intro q i hq
    rw [HandleMgr.heap_erase] at hq
    split_ifs at hq with heq
    exact ⟨heq, hq⟩
  constructor
  · intro name q hq
    rw [HandleMgr.hmap_erase] at hq
    split_ifs at hq with hname
    have hne : q ≠ h := fun heq => hname (hlinked.entry_unique hentry (heq ▸ hq))
    rw [HandleMgr.heap_erase, if_neg hne]
    exact hlinked.entry hq
  · intro q i hq
    obtain ⟨hne, hold⟩ := hheap hq
    have howned := hlinked.owned hold
    have hname : i.m ≠ m := fun hm => by
      rw [hm, hentry] at howned
      exact hne (Option.some.inj howned).symm
    rw [HandleMgr.hmap_erase, if_neg hname]
    exact howned
  · intro q i hq
    obtain ⟨hne, hold⟩ := hheap hq
    rw [hother q hne]
    exact hlinked.refcnt hold
  · intro q hq
    have hne : q ≠ h := fun heq => by
      rw [heq, hzero] at hq
      exact Nat.lt_irrefl 0 hq
    rw [hother q hne] at hq
    rw [HandleMgr.heap_erase, if_neg hne]
    exact hlinked.live hq
  · intro q i hq hdel
    obtain ⟨hne, hold⟩ := hheap hq
    rw [hother q hne]
    exact hlinked.marked hold hdel

theorem HandleMgr.erase_setInfo : (mgr.setInfo h info).erase m h = mgr.erase m h := by
  simp [HandleMgr.erase, HandleMgr.setInfo]

/-- `delete_handle_wo` on an address that is in the map. -/
theorem HandleMgr.deleteHandleWo_entry (hentry : mgr.hmap m = some h)
    (hinfo : mgr.heap h = some info) :
    mgr.deleteHandleWo m =
      if info.refcnt = 0 then some (mgr.erase m h)
      else some (mgr.setInfo h { info with del := true }) := by
  simp only [HandleMgr.deleteHandleWo, hentry, hinfo]

/-- `done_handle` finds the `hinfo` that it was called with. -/
theorem HandleMgr.Linked.doneHandle (hlinked : mgr.Linked refs) (hinfo : mgr.heap h = some info) :
    mgr.doneHandle h =
      if refs h = 1 ∧ info.del = true then some (mgr.erase info.m h)
      else some (mgr.setInfo h { info with refcnt := info.refcnt - 1 }) := by
  have hlast : info.refcnt - 1 = 0 ↔ refs h = 1 := by
    have := hlinked.refcnt hinfo
    omega
  simp only [HandleMgr.doneHandle, hinfo, hlast]
  split_ifs with hremove
  · have hheap : (mgr.setInfo h { info with refcnt := info.refcnt - 1 }).heap h =
        some { info with refcnt := info.refcnt - 1 } := by
      rw [HandleMgr.heap_setInfo, if_pos rfl]
    have hentry : (mgr.setInfo h { info with refcnt := info.refcnt - 1 }).hmap info.m = some h :=
      hlinked.owned hinfo
    rw [HandleMgr.deleteHandleWo_entry hentry hheap, if_pos (hlast.mpr hremove.1),
      HandleMgr.erase_setInfo]
  · rfl

end Linked

/-! ### Live handles -/

section Refs

variable {s : Process} {handle : Handle} {h q : Ptr}

theorem Process.mem_of_find {id : Nat} (hfind : s.find id = some handle) :
    handle ∈ s.handles :=
  List.mem_of_find?_eq_some hfind

theorem Process.refs_pos (hmem : handle ∈ s.handles) (href : handle.h = some h) : 0 < s.refs h :=
  List.countP_pos_iff.mpr ⟨handle, hmem, beq_iff_eq.mpr href⟩

theorem Process.refs_cons (mgr : HandleMgr) :
    Process.refs ⟨mgr, handle :: s.handles⟩ q = s.refs q + if handle.h = some q then 1 else 0 := by
  simp [Process.refs, List.countP_cons]

theorem Process.refs_erase (mgr : HandleMgr) (hmem : handle ∈ s.handles) :
    Process.refs ⟨mgr, s.handles.erase handle⟩ q = s.refs q - if handle.h = some q then 1 else 0 := by
  simp [Process.refs, List.countP_erase, hmem]

end Refs

/-! ### What each action does -/

/-- Everything a step can do, with what is known when it is taken. -/
inductive Process.Move (s : Process) : Action → Process → Prop
  | created {id : Nat} {m : String} {h : Ptr} (hentry : s.mgr.hmap m = none)
      (hfresh : s.mgr.heap h = none) :
      Move s (.construct id m h) ⟨s.mgr.insert m h, ⟨id, some h⟩ :: s.handles⟩
  | shared {id : Nat} {m : String} {fresh h : Ptr} {info : Hinfo}
      (hentry : s.mgr.hmap m = some h) (hinfo : s.mgr.heap h = some info)
      (hdel : info.del = false) :
      Move s (.construct id m fresh)
        ⟨s.mgr.setInfo h { info with refcnt := info.refcnt + 1 }, ⟨id, some h⟩ :: s.handles⟩
  | refused {id : Nat} {m : String} {fresh h : Ptr} {info : Hinfo}
      (hentry : s.mgr.hmap m = some h) (hinfo : s.mgr.heap h = some info)
      (hdel : info.del = true) :
      Move s (.construct id m fresh) ⟨s.mgr, ⟨id, none⟩ :: s.handles⟩
  | unused {id : Nat} {handle : Handle} (hfind : s.find id = some handle)
      (hnull : handle.h = none) : Move s (.destroy id) ⟨s.mgr, s.handles.erase handle⟩
  | removed {id : Nat} {handle : Handle} {h : Ptr} {info : Hinfo}
      (hfind : s.find id = some handle) (href : handle.h = some h)
      (hinfo : s.mgr.heap h = some info) (hlast : s.refs h = 1) (hdel : info.del = true) :
      Move s (.destroy id) ⟨s.mgr.erase info.m h, s.handles.erase handle⟩
  | dropped {id : Nat} {handle : Handle} {h : Ptr} {info : Hinfo}
      (hfind : s.find id = some handle) (href : handle.h = some h)
      (hinfo : s.mgr.heap h = some info) (hkept : ¬ (s.refs h = 1 ∧ info.del = true)) :
      Move s (.destroy id)
        ⟨s.mgr.setInfo h { info with refcnt := info.refcnt - 1 }, s.handles.erase handle⟩
  | returned {id : Nat} : Move s (.safebind id) s
  | locked {id : Nat} {handle : Handle} {h : Ptr} {info : Hinfo} (hinfo : s.mgr.heap h = some info) :
      Move s (.safebind id)
        { s with mgr := s.mgr.setInfo h { info with clMutex := some handle.id } }
  | unbound {id : Nat} {handle : Handle} {h : Ptr} {info : Hinfo}
      (hfind : s.find id = some handle) (href : handle.h = some h)
      (hinfo : s.mgr.heap h = some info) :
      Move s (.bound id none)
        { s with mgr := s.mgr.setInfo h { info with del := true, clMutex := none } }
  | bound {id cl : Nat} {h : Ptr} {info : Hinfo} (hinfo : s.mgr.heap h = some info) :
      Move s (.bound id (some cl))
        { s with mgr := s.mgr.setInfo h { info with cl := some cl, clMutex := none } }
  | absent {m : String} (hentry : s.mgr.hmap m = none) : Move s (.deleteHandle m) s
  | deleted {m : String} {h : Ptr} (hentry : s.mgr.hmap m = some h) (hzero : s.refs h = 0) :
      Move s (.deleteHandle m) { s with mgr := s.mgr.erase m h }
  | marked {m : String} {h : Ptr} {info : Hinfo} (hentry : s.mgr.hmap m = some h)
      (hinfo : s.mgr.heap h = some info) (hpos : 0 < s.refs h) :
      Move s (.deleteHandle m) { s with mgr := s.mgr.setInfo h { info with del := true } }

section Steps

variable {s t : Process}

theorem Process.move_of_construct {id : Nat} {m : String} {fresh : Ptr}
    (h : s.construct id m fresh = some t) : s.Move (.construct id m fresh) t := by
  unfold Process.construct HandleMgr.getHandle at h
  rcases hentry : s.mgr.hmap m with _ | p
  · simp only [hentry] at h
    split_ifs at h with hfresh
    obtain rfl := Option.some.inj h
    exact .created hentry hfresh
  · rcases hinfo : s.mgr.heap p with _ | info
    · simp [hentry, hinfo] at h
    · simp only [hentry, hinfo] at h
      rcases hdel : info.del with _ | _
      · rw [if_pos (by rw [hdel]; rfl)] at h
        obtain rfl := Option.some.inj h
        exact .shared hentry hinfo hdel
      · rw [if_neg (by rw [hdel]; exact Bool.false_ne_true)] at h
        obtain rfl := Option.some.inj h
        exact .refused hentry hinfo hdel

theorem Process.move_of_destroy (hlinked : s.mgr.Linked s.refs) {id : Nat} {handle : Handle}
    (hfind : s.find id = some handle) (h : s.destroy handle = some t) :
    s.Move (.destroy id) t := by
  unfold Process.destroy at h
  rcases href : handle.h with _ | p
  · simp only [href, Option.some.injEq] at h
    subst h
    exact .unused hfind href
  · obtain ⟨info, hinfo⟩ := hlinked.live (Process.refs_pos (Process.mem_of_find hfind) href)
    simp only [href, hlinked.doneHandle hinfo] at h
    by_cases hremove : s.refs p = 1 ∧ info.del = true
    · simp only [if_pos hremove, Option.some.injEq] at h
      subst h
      exact .removed hfind href hinfo hremove.1 hremove.2
    · simp only [if_neg hremove, Option.some.injEq] at h
      subst h
      exact .dropped hfind href hinfo hremove

theorem Process.move_of_safebind {id : Nat} {handle : Handle} (h : s.safebind handle = some t) :
    s.Move (.safebind id) t := by
  unfold Process.safebind at h
  split at h
  · obtain rfl := Option.some.inj h
    exact .returned
  · split at h
    · cases h
    · rename_i hinfo
      split_ifs at h
      · obtain rfl := Option.some.inj h
        exact .returned
      · obtain rfl := Option.some.inj h
        exact .returned
      · obtain rfl := Option.some.inj h
        exact .locked hinfo

theorem Process.move_of_bound {id : Nat} {handle : Handle} {cl : Option Nat}
    (hfind : s.find id = some handle) (h : s.bound handle cl = some t) :
    s.Move (.bound id cl) t := by
  unfold Process.bound at h
  split at h
  · cases h
  · rename_i href
    split at h
    · cases h
    · rename_i hinfo
      split_ifs at h
      cases cl with
      | none =>
          obtain rfl := Option.some.inj h
          exact .unbound hfind href hinfo
      | some cl =>
          obtain rfl := Option.some.inj h
          exact .bound hinfo

theorem Process.move_of_deleteHandle (hlinked : s.mgr.Linked s.refs) {m : String}
    {mgr : HandleMgr} (h : s.mgr.deleteHandle m = some mgr) :
    s.Move (.deleteHandle m) { s with mgr := mgr } := by
  rw [HandleMgr.deleteHandle] at h
  rcases hentry : s.mgr.hmap m with _ | p
  · simp only [HandleMgr.deleteHandleWo, hentry, Option.some.injEq] at h
    subst h
    exact .absent hentry
  · obtain ⟨info, hinfo, -⟩ := hlinked.entry hentry
    have hcount := hlinked.refcnt hinfo
    rw [HandleMgr.deleteHandleWo_entry hentry hinfo] at h
    split_ifs at h with hzero
    · obtain rfl := Option.some.inj h
      exact .deleted hentry (by omega)
    · obtain rfl := Option.some.inj h
      exact .marked hentry hinfo (by omega)

theorem Process.move_of_step (hlinked : s.mgr.Linked s.refs) {action : Action}
    (h : s.step action = some t) : s.Move action t := by
  cases action with
  | construct id m fresh => exact Process.move_of_construct (Option.ite_none_right_eq_some.mp h).2
  | destroy id =>
      rcases hfind : s.find id with _ | handle
      · simp [Process.step, hfind] at h
      · simp only [Process.step, hfind, Option.ite_none_left_eq_some] at h
        exact Process.move_of_destroy hlinked hfind h.2
  | safebind id =>
      rcases hfind : s.find id with _ | handle
      · simp [Process.step, hfind] at h
      · simp only [Process.step, hfind] at h
        exact Process.move_of_safebind h
  | bound id cl =>
      rcases hfind : s.find id with _ | handle
      · simp [Process.step, hfind] at h
      · simp only [Process.step, hfind] at h
        exact Process.move_of_bound hfind h
  | deleteHandle m =>
      obtain ⟨mgr, hmgr, rfl⟩ := Option.map_eq_some_iff.mp h
      exact Process.move_of_deleteHandle hlinked hmgr

/-- **The counts and links are kept by every step.** -/
theorem Process.Move.linked {action : Action} (hmove : s.Move action t)
    (hlinked : s.mgr.Linked s.refs) : t.mgr.Linked t.refs := by
  cases hmove with
  | @created id m h hentry hfresh =>
      refine hlinked.insert hentry hfresh ?_ fun q hne => ?_
      · rw [Process.refs_cons, if_pos rfl]
      · rw [Process.refs_cons, if_neg fun heq => hne (Option.some.inj heq).symm, Nat.add_zero]
  | @shared id m fresh h info hentry hinfo hdel =>
      refine hlinked.setInfo hinfo rfl ?_ (fun hdel' => ?_) fun q hne => ?_
      · rw [Process.refs_cons, if_pos rfl]
        show info.refcnt + 1 = _
        have hcount := hlinked.refcnt hinfo
        omega
      · rw [Process.refs_cons, if_pos rfl]
        exact Nat.succ_pos _
      · rw [Process.refs_cons, if_neg fun heq => hne (Option.some.inj heq).symm, Nat.add_zero]
  | @refused id m fresh h info hentry hinfo hdel =>
      have hrefs : Process.refs ⟨s.mgr, ⟨id, none⟩ :: s.handles⟩ = s.refs := by
        funext q
        rw [Process.refs_cons, if_neg nofun, Nat.add_zero]
      rw [hrefs]
      exact hlinked
  | @unused id handle hfind hnull =>
      have hrefs : Process.refs ⟨s.mgr, s.handles.erase handle⟩ = s.refs := by
        funext q
        rw [Process.refs_erase _ (Process.mem_of_find hfind), hnull, if_neg nofun, Nat.sub_zero]
      rw [hrefs]
      exact hlinked
  | @removed id handle h info hfind href hinfo hlast hdel =>
      refine hlinked.erase (hlinked.owned hinfo) ?_ fun q hne => ?_
      · rw [Process.refs_erase _ (Process.mem_of_find hfind), if_pos href, hlast]
      · rw [Process.refs_erase _ (Process.mem_of_find hfind), href,
          if_neg fun heq => hne (Option.some.inj heq).symm, Nat.sub_zero]
  | @dropped id handle h info hfind href hinfo hkept =>
      have hpos := Process.refs_pos (Process.mem_of_find hfind) href
      have hcount := hlinked.refcnt hinfo
      refine hlinked.setInfo hinfo rfl ?_ (fun hdel => ?_) fun q hne => ?_
      · rw [Process.refs_erase _ (Process.mem_of_find hfind), if_pos href]
        show info.refcnt - 1 = _
        omega
      · -- a marked `hinfo` keeps another handle
        have hmore : s.refs h ≠ 1 := fun hone => hkept ⟨hone, hdel⟩
        rw [Process.refs_erase _ (Process.mem_of_find hfind), if_pos href]
        omega
      · rw [Process.refs_erase _ (Process.mem_of_find hfind), href,
          if_neg fun heq => hne (Option.some.inj heq).symm, Nat.sub_zero]
  | returned => exact hlinked
  | locked hinfo => exact hlinked.setInfo_kept hinfo rfl rfl fun hdel => hlinked.marked hinfo hdel
  | unbound hfind href hinfo =>
      exact hlinked.setInfo_kept hinfo rfl rfl fun _ =>
        Process.refs_pos (Process.mem_of_find hfind) href
  | bound hinfo => exact hlinked.setInfo_kept hinfo rfl rfl fun hdel => hlinked.marked hinfo hdel
  | absent => exact hlinked
  | deleted hentry hzero => exact hlinked.erase hentry hzero fun _ _ => rfl
  | marked hentry hinfo hpos => exact hlinked.setInfo_kept hinfo rfl rfl fun _ => hpos

/-- The steps that take the `hinfo` at `h` of the address `m` away. -/
def Process.Removes (s : Process) (m : String) (h : Ptr) (info : Hinfo) : Action → Prop
  | .destroy id => (s.find id).bind Handle.h = some h ∧ s.refs h = 1 ∧ info.del = true
  | .deleteHandle name => name = m ∧ s.refs h = 0
  | _ => False

/-- An entry stays in the map, or it goes together with its `hinfo`. -/
theorem Process.Move.entry {action : Action} (hmove : s.Move action t)
    (hlinked : s.mgr.Linked s.refs) {m : String} {h : Ptr} {info : Hinfo}
    (hentry : s.mgr.hmap m = some h) (hinfo : s.mgr.heap h = some info) :
    s.Removes m h info action ∧ t.mgr.hmap m = none ∧ t.mgr.heap h = none ∨
      ¬ s.Removes m h info action ∧ t.mgr.hmap m = some h := by
  cases hmove with
  | @created id name p hnone hfresh =>
      have hne : m ≠ name := fun heq => by
        rw [heq, hnone] at hentry
        cases hentry
      exact .inr ⟨not_false, HandleMgr.hmap_insert.trans ((if_neg hne).trans hentry)⟩
  | shared => exact .inr ⟨not_false, hentry⟩
  | refused => exact .inr ⟨not_false, hentry⟩
  | unused hfind hnull =>
      refine .inr ⟨fun hremoves => ?_, hentry⟩
      rw [Process.Removes, hfind, Option.bind_some, hnull] at hremoves
      cases hremoves.1
  | @removed id handle p other hfind href hother hlast hdel =>
      by_cases heq : p = h
      · subst heq
        obtain rfl := Option.some.inj (hother.symm.trans hinfo)
        have hm : m = other.m := hlinked.entry_unique (hlinked.owned hinfo) hentry
        refine .inl ⟨⟨by rw [hfind, Option.bind_some, href], hlast, hdel⟩, ?_, ?_⟩
        · exact HandleMgr.hmap_erase.trans (if_pos hm)
        · exact HandleMgr.heap_erase.trans (if_pos rfl)
      · refine .inr ⟨fun hremoves => ?_, ?_⟩
        · rw [Process.Removes, hfind, Option.bind_some, href] at hremoves
          exact heq (Option.some.inj hremoves.1)
        · have hm : m ≠ other.m := fun hm => by
            rw [hm, hlinked.owned hother] at hentry
            exact heq (Option.some.inj hentry)
          exact HandleMgr.hmap_erase.trans ((if_neg hm).trans hentry)
  | @dropped id handle p other hfind href hother hkept =>
      refine .inr ⟨fun hremoves => ?_, hentry⟩
      rw [Process.Removes, hfind, Option.bind_some, href] at hremoves
      obtain ⟨heq, hlast, hdel⟩ := hremoves
      obtain rfl := Option.some.inj heq
      obtain rfl := Option.some.inj (hother.symm.trans hinfo)
      exact hkept ⟨hlast, hdel⟩
  | returned => exact .inr ⟨not_false, hentry⟩
  | locked => exact .inr ⟨not_false, hentry⟩
  | unbound => exact .inr ⟨not_false, hentry⟩
  | bound => exact .inr ⟨not_false, hentry⟩
  | @absent name hnone =>
      refine .inr ⟨fun hremoves => ?_, hentry⟩
      rw [hremoves.1, hentry] at hnone
      cases hnone
  | @deleted name p hname hzero =>
      by_cases heq : m = name
      · subst heq
        obtain rfl := Option.some.inj (hname.symm.trans hentry)
        exact .inl ⟨⟨rfl, hzero⟩, HandleMgr.hmap_erase.trans (if_pos rfl),
          HandleMgr.heap_erase.trans (if_pos rfl)⟩
      · exact .inr ⟨fun hremoves => heq hremoves.1.symm,
          HandleMgr.hmap_erase.trans ((if_neg heq).trans hentry)⟩
  | @marked name p other hname hother hpos =>
      refine .inr ⟨fun hremoves => ?_, hentry⟩
      obtain ⟨heq, hzero⟩ := hremoves
      rw [heq, hentry] at hname
      rw [Option.some.inj hname] at hzero
      omega

end Steps

/-! ### The discipline -/

/-- Counts, references and marks fit together. -/
structure Process.Disciplined (s : Process) : Prop where
  refcnt : ∀ m h, s.mgr.hmap m = some h →
    ∃ info, s.mgr.heap h = some info ∧ info.m = m ∧ info.refcnt = s.refs h
  live : ∀ handle ∈ s.handles, ∀ h, handle.h = some h →
    ∃ info, s.mgr.heap h = some info ∧ s.mgr.hmap info.m = some h
  marked : ∀ m h info, s.mgr.hmap m = some h → s.mgr.heap h = some info → info.del = true →
    0 < s.refs h

theorem HandleMgr.Linked.disciplined {s : Process} (h : s.mgr.Linked s.refs) : s.Disciplined where
  refcnt := fun m p hentry => by
    obtain ⟨info, hinfo, hm⟩ := h.entry hentry
    exact ⟨info, hinfo, hm, h.refcnt hinfo⟩
  live := fun handle hmem p href => by
    obtain ⟨info, hinfo⟩ := h.live (Process.refs_pos hmem href)
    exact ⟨info, hinfo, h.owned hinfo⟩
  marked := fun m p info _ => h.marked

theorem linked_of_reach {s : Process} {ok : Process → Action → Prop}
    (h : handleManager.Reach ok s) : s.mgr.Linked s.refs := by
  refine h.invariant (P := fun s => s.mgr.Linked s.refs) ?_ ?_
  · rintro start rfl
    constructor
    · intro m p hentry
      cases hentry
    · intro p info hinfo
      cases hinfo
    · intro p info hinfo
      cases hinfo
    · intro p hpos
      exact absurd hpos (Nat.lt_irrefl 0)
    · intro p info hinfo
      cases hinfo
  · intro s t action hlinked _ hstep
    exact (Process.move_of_step hlinked hstep).linked hlinked

/-- Every call that the code can make is carried out: it uses no pointer that has been freed. -/
structure Process.Defined (s : Process) : Prop where
  construct : ∀ id m fresh, s.find id = none → s.mgr.heap fresh = none →
    (s.step (.construct id m fresh)).isSome
  destroy : ∀ id handle, s.find id = some handle → s.binding handle = false →
    (s.step (.destroy id)).isSome
  deleteHandle : ∀ m, (s.step (.deleteHandle m)).isSome

theorem HandleMgr.Linked.defined {s : Process} (h : s.mgr.Linked s.refs) : s.Defined where
  construct := fun id m fresh hid hfresh => by
    rw [Process.step, if_pos hid, Process.construct, HandleMgr.getHandle]
    rcases hentry : s.mgr.hmap m with _ | p
    · simp [hfresh]
    · obtain ⟨info, hinfo, -⟩ := h.entry hentry
      cases hdel : info.del <;> simp [hinfo, hdel]
  destroy := fun id handle hfind hbinding => by
    simp only [Process.step, hfind, hbinding, Process.destroy]
    rcases href : handle.h with _ | p
    · rfl
    · obtain ⟨info, hinfo⟩ := h.live (Process.refs_pos (Process.mem_of_find hfind) href)
      simp only [Bool.false_eq_true, if_false, h.doneHandle hinfo]
      by_cases hremove : s.refs p = 1 ∧ info.del = true
      · simp [if_pos hremove]
      · simp [if_neg hremove]
  deleteHandle := fun m => by
    rw [Process.step, HandleMgr.deleteHandle, Option.isSome_map]
    rcases hentry : s.mgr.hmap m with _ | p
    · simp [HandleMgr.deleteHandleWo, hentry]
    · obtain ⟨info, hinfo, -⟩ := h.entry hentry
      rw [HandleMgr.deleteHandleWo_entry hentry hinfo]
      split_ifs <;> rfl

/-- **The handle manager keeps its reference discipline.**  Whatever the order of constructions,
    destructions, failed binds and deletions: the counts are those of the live handles, which
    refer to no removed `hinfo`; an `hinfo` goes exactly when the last handle of a marked one is
    destroyed or when its address is deleted while no handle refers to it, and a deletion before
    that marks it; an address without `hinfo` gets a new one, without mark. -/
theorem handle_reference_discipline {s : Process} (h : handleManager.Reach anyStep s) :
    s.Disciplined ∧ s.Defined ∧
      (∀ m p info, s.mgr.hmap m = some p → s.mgr.heap p = some info →
        ∀ action t, s.step action = some t →
          (t.mgr.hmap m = none ↔ s.Removes m p info action) ∧
          (t.mgr.hmap m = none → t.mgr.heap p = none) ∧
          (t.mgr.hmap m ≠ none → t.mgr.hmap m = some p)) ∧
      (∀ m p info, s.mgr.hmap m = some p → s.mgr.heap p = some info → 0 < s.refs p →
        ∃ t, s.step (.deleteHandle m) = some t ∧
          t.mgr.heap p = some { info with del := true }) ∧
      ∀ m, s.mgr.hmap m = none → ∀ id fresh t, s.step (.construct id m fresh) = some t →
        s.mgr.heap fresh = none ∧ t.mgr.hmap m = some fresh ∧
          t.handles = ⟨id, some fresh⟩ :: s.handles ∧
          ∃ info, t.mgr.heap fresh = some info ∧ info.del = false ∧ info.refcnt = 1 := by
  have hlinked := linked_of_reach h
  refine ⟨hlinked.disciplined, hlinked.defined, ?_, ?_, ?_⟩
  · intro m p info hentry hinfo action t hstep
    rcases (Process.move_of_step hlinked hstep).entry hlinked hentry hinfo with
      ⟨hremoves, hnone, hfreed⟩ | ⟨hkept, hsame⟩
    · exact ⟨⟨fun _ => hremoves, fun _ => hnone⟩, fun _ => hfreed, fun hne => absurd hnone hne⟩
    · rw [hsame]
      exact ⟨⟨nofun, fun hremoves => absurd hremoves hkept⟩, nofun, fun _ => rfl⟩
  · intro m p info hentry hinfo hpos
    have hrefcnt : info.refcnt ≠ 0 := by
      have := hlinked.refcnt hinfo
      omega
    have hdelete : s.mgr.deleteHandle m = some (s.mgr.setInfo p { info with del := true }) :=
      (HandleMgr.deleteHandleWo_entry hentry hinfo).trans (if_neg hrefcnt)
    refine ⟨{ s with mgr := s.mgr.setInfo p { info with del := true } }, ?_, ?_⟩
    · rw [Process.step, hdelete]
      rfl
    · exact HandleMgr.heap_setInfo.trans (if_pos rfl)
  · intro m hnone id fresh t hstep
    cases Process.move_of_step hlinked hstep with
    | created hentry hfresh =>
        exact ⟨hfresh, HandleMgr.hmap_insert.trans (if_pos rfl), rfl, _,
          HandleMgr.heap_insert.trans (if_pos rfl), rfl, rfl⟩
    | shared hentry => cases hnone.symm.trans hentry
    | refused hentry => cases hnone.symm.trans hentry

/-- After a failed bind the next handle for the address refers to nothing, and when the first
    one is destroyed, the last gets an `hinfo` that may stand at the same place. -/
theorem handle_reference_discipline_failed_bind :
    ∃ s, handleManager.Reach anyStep s ∧ s.Disciplined ∧
      s.handles = [⟨3, some 7⟩, ⟨2, none⟩] ∧ s.mgr.hmap "a" = some 7 ∧
      s.mgr.heap 7 = some { cl := none, refcnt := 1, del := false, m := "a", clMutex := none } := by
  obtain ⟨s, hs, hview⟩ : ∃ s, handleManager.Reach anyStep s ∧
      (s.handles, s.mgr.hmap "a", s.mgr.heap 7) =
        ([⟨3, some 7⟩, ⟨2, none⟩], some 7,
          some { cl := none, refcnt := 1, del := false, m := "a", clMutex := none }) :=
    System.Reach.of_exec (fun _ _ => true)
      [.construct 1 "a" 7, .safebind 1, .bound 1 none, .construct 2 "a" 8, .destroy 1,
        .construct 3 "a" 7] rfl (fun _ _ _ => trivial) (by decide +kernel)
  simp only [Prod.mk.injEq] at hview
  exact ⟨s, hs, (handle_reference_discipline hs).1, hview⟩

end DistributedLab.Handles
