import Mathlib.Algebra.Group.Nat.Defs
import Mathlib.Data.List.Nodup
import Mathlib.Data.List.TakeWhile

/-!
# The windows of an RPC connection

`rpc.cc` gives at-most-once semantics with two windows.  The client keeps the xids of
finished calls in `xid_rep_window_`, drops the ones without a gap before them, and
sends the first that is left as `xid_rep` with every request.  The server keeps an
entry for every request it has seen, drops the entries below `xid_rep`, and tells a
new request from a duplicate by the entries that are left.

A request below the first entry is FORGOTTEN, one above the last entry or in a gap is
NEW, and in an empty window everything is NEW.  So the answer is right only if the
window never becomes empty without the request that emptied it being put in, which is
what `Outcome` and `Seen` below say.
-/

namespace DistributedLab.Rpc

/-! ## 1. The client

`xid_` and the entries of the window are of type `unsigned int`.  `calls` holds the
keys of `calls_`; what a `caller` holds besides is only used for the return value of
`call1`. -/

def xidBound : Nat := 2 ^ 32

/-- `rpc_const::bind`. -/
def bindProc : Nat := 1

structure Rpcc where
  srvNonce : Nat
  bindDone : Bool
  xid : Nat
  destroyWait : Bool
  calls : List Nat
  xidRepWindow : List Nat
deriving DecidableEq, Repr

/-- The header of a request. -/
structure Request where
  clt : Nat
  xid : Nat
  proc : Nat
  srvNonce : Nat
  xidRep : Nat
deriving DecidableEq, Repr

/-- A reply with its header. -/
structure ReplyPdu where
  xid : Nat
  ret : Int
  body : List UInt8
deriving DecidableEq, Repr

def Rpcc.new : Rpcc where
  srvNonce := 0
  bindDone := false
  xid := 1
  destroyWait := false
  calls := []
  xidRepWindow := [0]

/-- `xid_rep_window_.front()`. -/
def Rpcc.front (c : Rpcc) : Nat := c.xidRepWindow.headD 0

/-- The first loop of `update_xid_rep`. -/
def insertXid (xid : Nat) : List Nat → List Nat
  | [] => [xid]
  | y :: rest => if y > xid then xid :: y :: rest else y :: insertXid xid rest

/-- The loop at `compress`: the iterator stands between the two lists, and the front is
    popped as long as the element after it follows without a gap. -/
def compress (before : List Nat) : List Nat → List Nat
  | [] => before
  | y :: after =>
      compress (before.dropWhile (fun front => (front + 1) % xidBound == y) ++ [y]) after

def updateXidRep (xid : Nat) : List Nat → List Nat
  | [] => []
  | front :: rest =>
      if xid ≤ front then front :: rest
      else
        match insertXid xid (front :: rest) with
        | [] => []
        | first :: after => compress [first] after

def Rpcc.updateXidRep (c : Rpcc) (xid : Nat) : Rpcc :=
  { c with xidRepWindow := Rpc.updateXidRep xid c.xidRepWindow }

/-- `call1` up to the packed header; `none` when it returns an error before that. -/
def Rpcc.call1 (c : Rpcc) (clt proc : Nat) : Option (Rpcc × Request) :=
  if (proc ≠ bindProc ∧ c.bindDone = false) ∨ (proc = bindProc ∧ c.bindDone = true) then none
  else if c.destroyWait then none
  else
    some ({ c with xid := (c.xid + 1) % xidBound, calls := c.xid :: c.calls },
      { clt := clt, xid := c.xid, proc := proc, srvNonce := c.srvNonce, xidRep := c.front })

/-- The end of `call1`, after a reply, a timeout or a cancellation. -/
def Rpcc.finish (c : Rpcc) (xid : Nat) : Option Rpcc :=
  if xid ∈ c.calls then
    some (({ c with calls := c.calls.erase xid }).updateXidRep xid)
  else none

def Rpcc.gotPdu (c : Rpcc) (pdu : ReplyPdu) : Rpcc := c.updateXidRep pdu.xid

/-- `bind` after a call that returned `r`. -/
def Rpcc.bound (c : Rpcc) (r : Nat) : Rpcc := { c with bindDone := true, srvNonce := r }

def Rpcc.cancel (c : Rpcc) : Rpcc := { c with destroyWait := c.destroyWait || !c.calls.isEmpty }

theorem mem_insertXid {xid w : Nat} {window : List Nat} (h : w ∈ insertXid xid window) :
    w = xid ∨ w ∈ window := by
  induction window with
  | nil => exact .inl (List.mem_singleton.mp h)
  | cons y rest ih =>
      unfold insertXid at h
      split at h
      · exact List.mem_cons.mp h
      · rcases List.mem_cons.mp h with rfl | hrest
        · exact .inr List.mem_cons_self
        · rcases ih hrest with heq | hmem
          · exact .inl heq
          · exact .inr (List.mem_cons_of_mem y hmem)

theorem mem_compress {w : Nat} {before after : List Nat} (h : w ∈ compress before after) :
    w ∈ before ∨ w ∈ after := by
  induction after generalizing before with
  | nil => exact .inl h
  | cons y after ih =>
      rcases ih h with hbefore | hafter
      · rcases List.mem_append.mp hbefore with hdropped | hy
        · exact .inl ((List.dropWhile_sublist _).subset hdropped)
        · exact .inr (List.mem_cons.mpr (.inl (List.mem_singleton.mp hy)))
      · exact .inr (List.mem_cons_of_mem y hafter)

/-- The window holds no xid that was not put in. -/
theorem mem_updateXidRep {xid w : Nat} {window : List Nat} (h : w ∈ updateXidRep xid window) :
    w = xid ∨ w ∈ window := by
  rcases window with _ | ⟨front, rest⟩
  · cases h
  · simp only [updateXidRep] at h
    split_ifs at h
    · exact .inr h
    · rcases hinsert : insertXid xid (front :: rest) with _ | ⟨first, after⟩
      · rw [hinsert] at h
        cases h
      · rw [hinsert] at h
        apply mem_insertXid
        rw [hinsert]
        rcases mem_compress h with hfirst | hafter
        · exact List.mem_cons.mpr (.inl (List.mem_singleton.mp hfirst))
        · exact List.mem_cons_of_mem first hafter

/-! ## 2. The reply window of the server

An entry points to the reply once `add_reply` has stored it; `cb_present` is then
true. -/

structure ReplyT where
  xid : Nat
  buf : Option Nat
deriving DecidableEq, Repr

/-- `rpcstate_t`.  DONE comes with the pointer that is returned in `*b`. -/
inductive RpcState where
  | new
  | inprogress
  | done (buf : Nat)
  | forgotten
deriving DecidableEq, Repr

/-- The first loop of `checkduplicate_and_update`. -/
def trim (xidRep : Nat) (w : List ReplyT) : List ReplyT := w.dropWhile fun e => e.xid < xidRep

/-- The buffers that this loop frees. -/
def freed (xidRep : Nat) (w : List ReplyT) : List Nat :=
  (w.takeWhile fun e => e.xid < xidRep).filterMap fun e => e.buf

/-- The last branch: find the first entry that is not below `xid`. -/
def scan (xid : Nat) : List ReplyT → RpcState × List ReplyT
  | [] => (.new, [⟨xid, none⟩])
  | e :: rest =>
      if e.xid < xid then ((scan xid rest).1, e :: (scan xid rest).2)
      else if e.xid = xid then
        match e.buf with
        | some buf => (.done buf, e :: rest)
        | none => (.inprogress, e :: rest)
      else (.new, ⟨xid, none⟩ :: e :: rest)

/-- `checkduplicate_and_update` after the first loop. -/
def classify (w : List ReplyT) (xid : Nat) : RpcState × List ReplyT :=
  if w.getLast?.all fun back => back.xid < xid then (.new, w ++ [⟨xid, none⟩])
  else if w.head?.any fun front => front.xid > xid then (.forgotten, w)
  else scan xid w

def checkduplicateAndUpdate (w : List ReplyT) (xid xidRep : Nat) : RpcState × List ReplyT :=
  classify (trim xidRep w) xid

/-- `add_reply`.  If there is no entry, the source writes through `end()`: `none`. -/
def addReply (xid buf : Nat) : List ReplyT → Option (List ReplyT)
  | [] => none
  | e :: rest =>
      if e.xid = xid then some (⟨e.xid, some buf⟩ :: rest)
      else (addReply xid buf rest).map fun rest' => e :: rest'

/-- The entries are in the order of their xids. -/
def Sorted (w : List ReplyT) : Prop := w.Pairwise fun a b => a.xid < b.xid

theorem Sorted.trim_eq_filter {w : List ReplyT} (h : Sorted w) (xidRep : Nat) :
    trim xidRep w = w.filter fun e => xidRep ≤ e.xid := by
  induction w with
  | nil => rfl
  | cons e rest ih =>
      obtain ⟨hhead, hrest⟩ := List.pairwise_cons.mp h
      by_cases hlt : e.xid < xidRep
      · rw [trim, List.dropWhile_cons_of_pos (by simpa using hlt),
          List.filter_cons_of_neg (by simpa using hlt)]
        exact ih hrest
      · have hall : ∀ e' ∈ rest, xidRep ≤ e'.xid := by
          intro e' hmem
          have := hhead e' hmem
          omega
        rw [trim, List.dropWhile_cons_of_neg (by simpa using hlt),
          List.filter_cons_of_pos (by simpa using hlt),
          List.filter_eq_self.mpr (by simpa using hall)]

theorem Sorted.mem_trim {w : List ReplyT} (h : Sorted w) {xidRep : Nat} {e : ReplyT} :
    e ∈ trim xidRep w ↔ e ∈ w ∧ xidRep ≤ e.xid := by
  rw [h.trim_eq_filter, List.mem_filter, decide_eq_true_eq]

theorem Sorted.trim {w : List ReplyT} (h : Sorted w) (xidRep : Nat) : Sorted (trim xidRep w) :=
  h.sublist (List.dropWhile_sublist _)

/-- A freed buffer belongs to an entry below `xid_rep`. -/
theorem mem_freed {w : List ReplyT} {xidRep buf : Nat} (h : buf ∈ freed xidRep w) :
    ∃ e ∈ w, e.xid < xidRep ∧ e.buf = some buf := by
  obtain ⟨e, hmem, hbuf⟩ := List.mem_filterMap.mp h
  have hlt := List.mem_takeWhile_imp hmem
  exact ⟨e, (List.takeWhile_sublist _).subset hmem, by simpa using hlt, hbuf⟩

theorem Sorted.eq_of_xid {w : List ReplyT} (h : Sorted w) {e e' : ReplyT} (he : e ∈ w)
    (he' : e' ∈ w) (hxid : e.xid = e'.xid) : e = e' := by
  have hnodup : (w.map ReplyT.xid).Nodup := List.pairwise_map.mpr (h.imp Nat.ne_of_lt)
  exact List.inj_on_of_nodup_map hnodup he he' hxid

/-! ## 3. What the server answers

`Outcome` gives for each answer what the trimmed window is like and what becomes of
it.  `Seen` is the trace that a NEW request leaves: as long as its entry is there, or
all entries are above it and there is one, it is not NEW again. -/

inductive Outcome (w : List ReplyT) (xid : Nat) : RpcState → List ReplyT → Prop
  | new (before after : List ReplyT) (hw : w = before ++ after)
      (hbefore : ∀ e ∈ before, e.xid < xid) (hafter : ∀ e ∈ after, xid < e.xid)
      (hfront : after ≠ [] → before ≠ []) :
      Outcome w xid .new (before ++ ⟨xid, none⟩ :: after)
  | inprogress (h : ⟨xid, none⟩ ∈ w) : Outcome w xid .inprogress w
  | done {buf : Nat} (h : ⟨xid, some buf⟩ ∈ w) : Outcome w xid (.done buf) w
  | forgotten (hne : w ≠ []) (h : ∀ e ∈ w, xid < e.xid) : Outcome w xid .forgotten w

theorem Outcome.cons {e : ReplyT} {w next : List ReplyT} {xid : Nat} {state : RpcState}
    (h : Outcome w xid state next) (hlt : e.xid < xid) (hstate : state ≠ .forgotten) :
    Outcome (e :: w) xid state (e :: next) := by
  cases h with
  | new before after hw hbefore hafter hfront =>
      refine .new (e :: before) after (by rw [hw]; rfl) ?_ hafter (fun _ => nofun)
      intro e' hmem
      rcases List.mem_cons.mp hmem with rfl | hmem
      · exact hlt
      · exact hbefore e' hmem
  | inprogress hmem => exact .inprogress (List.mem_cons_of_mem e hmem)
  | done hmem => exact .done (List.mem_cons_of_mem e hmem)
  | forgotten => exact absurd rfl hstate

theorem scan_ne_forgotten (xid : Nat) (w : List ReplyT) : (scan xid w).1 ≠ .forgotten := by
  induction w with
  | nil => nofun
  | cons e rest ih =>
      unfold scan
      split_ifs
      · exact ih
      · rcases e.buf with _ | buf <;> nofun
      · nofun

theorem outcome_scan {w : List ReplyT} {xid : Nat} (hsorted : Sorted w)
    (hback : ∃ e ∈ w, xid ≤ e.xid) (hhead : ∀ e ∈ w.head?, e.xid ≤ xid) :
    Outcome w xid (scan xid w).1 (scan xid w).2 := by
  induction w with
  | nil =>
      obtain ⟨e, hmem, -⟩ := hback
      cases hmem
  | cons e rest ih =>
      obtain ⟨hlt, hrest⟩ := List.pairwise_cons.mp hsorted
      have hle : e.xid ≤ xid := hhead e rfl
      by_cases heq : e.xid = xid
      · obtain ⟨exid, buf⟩ := e
        subst heq
        cases buf with
        | none =>
            simp only [scan, lt_irrefl, if_false, if_true]
            exact .inprogress List.mem_cons_self
        | some buf =>
            simp only [scan, lt_irrefl, if_false, if_true]
            exact .done List.mem_cons_self
      · have hbelow : e.xid < xid := by omega
        have hback' : ∃ e' ∈ rest, xid ≤ e'.xid := by
          obtain ⟨e', hmem, hge⟩ := hback
          rcases List.mem_cons.mp hmem with rfl | hmem
          · omega
          · exact ⟨e', hmem, hge⟩
        simp only [scan, if_pos hbelow]
        rcases rest with _ | ⟨next, rest'⟩
        · obtain ⟨e', hmem, -⟩ := hback'
          cases hmem
        · by_cases habove : xid < next.xid
          · -- the gap between `e` and the next entry
            have hnot : ¬ next.xid < xid := by omega
            have hne : next.xid ≠ xid := by omega
            simp only [scan, if_neg hnot, if_neg hne]
            refine .new [e] (next :: rest') rfl ?_ ?_ (fun _ => nofun)
            · simpa using hbelow
            · intro e' hmem
              rcases List.mem_cons.mp hmem with rfl | hmem
              · exact habove
              · have := (List.pairwise_cons.mp hrest).1 e' hmem
                omega
          · have hnext : ∀ e' ∈ (next :: rest').head?, e'.xid ≤ xid := by
              intro e' hmem
              cases hmem
              omega
            exact (ih hrest hback' hnext).cons hbelow (scan_ne_forgotten xid _)

theorem outcome_classify {w : List ReplyT} {xid : Nat} (hsorted : Sorted w) :
    Outcome w xid (classify w xid).1 (classify w xid).2 := by
  unfold classify
  split_ifs with hlast hhead
  · -- above the last entry, or there is none
    refine .new w [] (List.append_nil w).symm ?_ nofun (fun h => absurd rfl h)
    intro e hmem
    rcases hw : w.getLast? with _ | back
    · rw [List.getLast?_eq_none_iff.mp hw] at hmem
      cases hmem
    · have hback : back.xid < xid := by simpa [hw] using hlast
      obtain ⟨init, rfl⟩ := List.getLast?_eq_some_iff.mp hw
      rcases List.mem_append.mp hmem with hinit | hback'
      · have := (List.pairwise_append.mp hsorted).2.2 e hinit back (List.mem_singleton_self back)
        omega
      · rw [List.mem_singleton.mp hback']
        exact hback
  · rcases w with _ | ⟨front, rest⟩
    · simp at hhead
    · have hfront : xid < front.xid := by simpa using hhead
      refine .forgotten nofun ?_
      intro e hmem
      rcases List.mem_cons.mp hmem with rfl | hmem
      · exact hfront
      · have := (List.pairwise_cons.mp hsorted).1 e hmem
        omega
  · apply outcome_scan hsorted
    · rcases hw : w.getLast? with _ | back
      · simp [hw] at hlast
      · exact ⟨back, List.mem_of_getLast? hw, by simpa [hw] using hlast⟩
    · intro e hmem
      rcases w with _ | ⟨front, rest⟩
      · cases hmem
      · cases hmem
        simpa using hhead

section Outcome

variable {w next : List ReplyT} {xid : Nat} {state : RpcState}

theorem Outcome.mem (h : Outcome w xid state next) {e : ReplyT} (hmem : e ∈ next) :
    e ∈ w ∨ e = ⟨xid, none⟩ := by
  cases h with
  | new before after hw hbefore hafter hfront =>
      rw [hw]
      simp only [List.mem_append, List.mem_cons] at hmem ⊢
      tauto
  | inprogress => exact .inl hmem
  | done => exact .inl hmem
  | forgotten => exact .inl hmem

theorem Outcome.subset (h : Outcome w xid state next) {e : ReplyT} (hmem : e ∈ w) : e ∈ next := by
  cases h with
  | new before after hw hbefore hafter hfront =>
      rw [hw] at hmem
      simp only [List.mem_append, List.mem_cons] at hmem ⊢
      tauto
  | inprogress => exact hmem
  | done => exact hmem
  | forgotten => exact hmem

theorem Outcome.sorted (h : Outcome w xid state next) (hsorted : Sorted w) : Sorted next := by
  cases h with
  | new before after hw hbefore hafter hfront =>
      subst hw
      obtain ⟨hsbefore, hsafter, hcross⟩ := List.pairwise_append.mp hsorted
      refine List.pairwise_append.mpr ⟨hsbefore, List.pairwise_cons.mpr ⟨hafter, hsafter⟩, ?_⟩
      intro e hmem e' hmem'
      rcases List.mem_cons.mp hmem' with rfl | hmem'
      · exact hbefore e hmem
      · exact hcross e hmem e' hmem'
  | inprogress => exact hsorted
  | done => exact hsorted
  | forgotten => exact hsorted

end Outcome

def Seen (w : List ReplyT) (xid : Nat) : Prop :=
  (∃ e ∈ w, e.xid = xid) ∨ (w ≠ [] ∧ ∀ e ∈ w, xid < e.xid)

theorem Seen.trim {w : List ReplyT} {xid xidRep : Nat} (h : Seen w xid) (hsorted : Sorted w) :
    Seen (trim xidRep w) xid ∨ (Rpc.trim xidRep w = [] ∧ xid < xidRep) := by
  by_cases hempty : Rpc.trim xidRep w = []
  · by_cases hlt : xid < xidRep
    · exact .inr ⟨hempty, hlt⟩
    · -- an entry that is not below `xid` survives
      have hsurvives : ∀ e ∈ w, ¬ xid ≤ e.xid := by
        intro e hmem hle
        have : e ∈ Rpc.trim xidRep w := hsorted.mem_trim.mpr ⟨hmem, by omega⟩
        rw [hempty] at this
        cases this
      rcases h with ⟨e, hmem, rfl⟩ | ⟨hne, hall⟩
      · exact absurd le_rfl (hsurvives e hmem)
      · obtain ⟨e, hmem⟩ := List.exists_mem_of_ne_nil w hne
        exact absurd (hall e hmem).le (hsurvives e hmem)
  · left
    rcases h with ⟨e, hmem, rfl⟩ | ⟨-, hall⟩
    · by_cases hle : xidRep ≤ e.xid
      · exact .inl ⟨e, hsorted.mem_trim.mpr ⟨hmem, hle⟩, rfl⟩
      · refine .inr ⟨hempty, ?_⟩
        intro e' hmem'
        have := (hsorted.mem_trim.mp hmem').2
        omega
    · exact .inr ⟨hempty, fun e hmem => hall e (hsorted.mem_trim.mp hmem).1⟩

/-- A request that has left a trace is not NEW. -/
theorem Seen.not_new {w next : List ReplyT} {xid : Nat} (h : Seen w xid) :
    ¬ Outcome w xid .new next := by
  intro hnew
  cases hnew with
  | new before after hw hbefore hafter hfront =>
      subst hw
      rcases h with ⟨e, hmem, rfl⟩ | ⟨hne, hall⟩
      · rcases List.mem_append.mp hmem with hmem | hmem
        · exact absurd (hbefore e hmem) (lt_irrefl _)
        · exact absurd (hafter e hmem) (lt_irrefl _)
      · rcases before with _ | ⟨e, before⟩
        · exact hfront hne rfl
        · have habove := hall e List.mem_cons_self
          have hbelow := hbefore e List.mem_cons_self
          omega

theorem Seen.classified {w next : List ReplyT} {xid y : Nat} {state : RpcState} (h : Seen w xid)
    (hout : Outcome w y state next) : Seen next xid := by
  rcases h with ⟨e, hmem, rfl⟩ | ⟨hne, hall⟩
  · exact .inl ⟨e, hout.subset hmem, rfl⟩
  · cases hout with
    | new before after hw hbefore hafter hfront =>
        subst hw
        obtain ⟨front, hfrontmem⟩ : ∃ front, front ∈ before := by
          rcases before with _ | ⟨front, before⟩
          · exact absurd rfl (hfront hne)
          · exact ⟨front, List.mem_cons_self⟩
        have hlt : xid < y := (hall front (List.mem_append_left _ hfrontmem)).trans
          (hbefore front hfrontmem)
        refine .inr ⟨by simp, ?_⟩
        intro e hmem
        rcases (Outcome.new before after rfl hbefore hafter hfront).mem hmem with hold | rfl
        · exact hall e hold
        · exact hlt
    | inprogress => exact .inr ⟨hne, hall⟩
    | done => exact .inr ⟨hne, hall⟩
    | forgotten => exact .inr ⟨hne, hall⟩

/-- **One call of `checkduplicate_and_update`** keeps the traces of all requests: if it empties
    the window, it puts in a request above everything it has dropped. -/
theorem Seen.checkduplicate {w next : List ReplyT} {xid y xidRep : Nat} {state : RpcState}
    (h : Seen w xid) (hsorted : Sorted w) (hrep : xidRep < y)
    (hout : Outcome (Rpc.trim xidRep w) y state next) : Seen next xid := by
  rcases h.trim hsorted with hseen | ⟨hempty, hlt⟩
  · exact hseen.classified hout
  · rw [hempty] at hout
    cases hout with
    | new before after hw hbefore hafter hfront =>
        obtain ⟨rfl, rfl⟩ := List.append_eq_nil_iff.mp hw.symm
        refine .inr ⟨nofun, ?_⟩
        intro e hmem
        rw [List.nil_append, List.mem_singleton] at hmem
        rw [hmem]
        exact hlt.trans hrep
    | inprogress hmem => cases hmem
    | done hmem => cases hmem
    | forgotten hne => exact absurd rfl hne

/-! ## 4. Storing a reply -/

section AddReply

variable {w next : List ReplyT} {xid buf : Nat}

theorem addReply_isSome (h : ∃ e ∈ w, e.xid = xid) : (addReply xid buf w).isSome := by
  induction w with
  | nil =>
      obtain ⟨e, hmem, -⟩ := h
      cases hmem
  | cons e rest ih =>
      unfold addReply
      split_ifs with heq
      · rfl
      · rw [Option.isSome_map]
        apply ih
        obtain ⟨e', hmem, hxid⟩ := h
        rcases List.mem_cons.mp hmem with rfl | hmem
        · exact absurd hxid heq
        · exact ⟨e', hmem, hxid⟩

theorem addReply_xids (h : addReply xid buf w = some next) :
    next.map ReplyT.xid = w.map ReplyT.xid := by
  induction w generalizing next with
  | nil => cases h
  | cons e rest ih =>
      unfold addReply at h
      split_ifs at h
      · cases h
        rfl
      · obtain ⟨rest', hrest, rfl⟩ := Option.map_eq_some_iff.mp h
        rw [List.map_cons, List.map_cons, ih hrest]

/-- The entry of the request points to the reply, the others are as before. -/
theorem mem_of_addReply (h : addReply xid buf w = some next) (hsorted : Sorted w) {e : ReplyT}
    (hmem : e ∈ next) : e = ⟨xid, some buf⟩ ∨ (e ∈ w ∧ e.xid ≠ xid) := by
  induction w generalizing next with
  | nil => cases h
  | cons first rest ih =>
      obtain ⟨hlt, hrest⟩ := List.pairwise_cons.mp hsorted
      unfold addReply at h
      split_ifs at h with heq
      · cases h
        rcases List.mem_cons.mp hmem with rfl | hmem
        · exact .inl (by rw [heq])
        · have := hlt e hmem
          exact .inr ⟨List.mem_cons_of_mem first hmem, by omega⟩
      · obtain ⟨rest', hadd, rfl⟩ := Option.map_eq_some_iff.mp h
        rcases List.mem_cons.mp hmem with rfl | hmem
        · exact .inr ⟨List.mem_cons_self, heq⟩
        · rcases ih hadd hrest hmem with hnew | ⟨hold, hne⟩
          · exact .inl hnew
          · exact .inr ⟨List.mem_cons_of_mem first hold, hne⟩

theorem mem_addReply_self (h : addReply xid buf w = some next) : ⟨xid, some buf⟩ ∈ next := by
  induction w generalizing next with
  | nil => cases h
  | cons first rest ih =>
      unfold addReply at h
      split_ifs at h with heq
      · cases h
        rw [heq]
        exact List.mem_cons_self
      · obtain ⟨rest', hadd, rfl⟩ := Option.map_eq_some_iff.mp h
        exact List.mem_cons_of_mem first (ih hadd)

theorem mem_addReply_of_ne (h : addReply xid buf w = some next) {e : ReplyT} (hmem : e ∈ w)
    (hne : e.xid ≠ xid) : e ∈ next := by
  induction w generalizing next with
  | nil => cases h
  | cons first rest ih =>
      unfold addReply at h
      split_ifs at h with heq
      · cases h
        rcases List.mem_cons.mp hmem with rfl | hmem
        · exact absurd heq hne
        · exact List.mem_cons_of_mem _ hmem
      · obtain ⟨rest', hadd, rfl⟩ := Option.map_eq_some_iff.mp h
        rcases List.mem_cons.mp hmem with rfl | hmem
        · exact List.mem_cons_self
        · exact List.mem_cons_of_mem first (ih hadd hmem)

theorem sorted_iff_xids : Sorted w ↔ (w.map ReplyT.xid).Pairwise (· < ·) :=
  List.pairwise_map.symm

theorem seen_iff_xids {y : Nat} :
    Seen w y ↔ y ∈ w.map ReplyT.xid ∨ (w.map ReplyT.xid ≠ [] ∧ ∀ x ∈ w.map ReplyT.xid, y < x) := by
  simp [Seen]

theorem Sorted.addReply (hsorted : Sorted w) (h : addReply xid buf w = some next) :
    Sorted next := by
  rw [sorted_iff_xids, addReply_xids h]
  exact sorted_iff_xids.mp hsorted

theorem Seen.addReply {y : Nat} (hseen : Seen w y) (h : addReply xid buf w = some next) :
    Seen next y := by
  rw [seen_iff_xids, addReply_xids h]
  exact seen_iff_xids.mp hseen

end AddReply

end DistributedLab.Rpc
