import DistributedLab.RsmNode
import Mathlib.Algebra.GroupWithZero.Nat
import Mathlib.Data.List.Nodup
import Mathlib.Data.List.Induction

/-!
# Forwarding client requests

`client_invoke` at the primary sends a request with the primary's `myvs` to the other
members of the view, one after the other, gives up at the first one that does not
answer OK, and executes the request itself last.  `invoke` at a backup executes it if
the viewstamp is the one the backup expects.  Both run under `invoke_mutex`, so calls
at the primary follow each other.

`myvs` is set by `recovery` and by nothing else: neither side advances it after an
execution.  All requests of a view carry the same viewstamp, and the comparison in
`invoke` accepts every one of them.
-/

namespace DistributedLab.Rsm

open Paxos Config

/-! ### The handlers -/

section Handlers

variable {σ ρ β : Type} (execute : ρ → σ → σ × β)

def Node.amiprimary (n : Node σ) : Bool := n.primary == n.myaddr && !n.inviewchange

/-- `invoke`; the flag tells whether the answer is OK. -/
def Node.invoke (n : Node σ) (vs : Viewstamp) (req : ρ) : Node σ × Bool :=
  if n.inviewchange then (n, false)
  else if n.amiprimary then (n, false)
  else if vs ≠ n.myvs then (n, false)
  else ({ n with svc := (execute req n.svc).1 }, true)

/-- What becomes of the RPC to one backup. -/
inductive Delivery where
  /-- The handler runs, with the backup in a view change or not, and its answer arrives or
      is too late. -/
  | handled (changing answered : Bool)
  | lost
  /-- `safebind` returns NULL. -/
  | unbound
deriving DecidableEq, Repr

/-- One call of `client_invoke` and what becomes of its RPCs. -/
structure ClientCall (ρ : Type) where
  req : ρ
  delivery : String → Delivery

inductive Answer (β : Type) where
  | ok (r : β)
  | busy
  | notPrimary
deriving DecidableEq, Repr

def Answer.isOk : Answer β → Bool
  | .ok _ => true
  | _ => false

/-- The replicas, each with the requests it has executed and their viewstamps. -/
structure Group (σ ρ : Type) where
  node : String → Node σ
  executed : String → List (Viewstamp × ρ)

/-- The request arrives at backup `t`. -/
def Group.invokeAt (g : Group σ ρ) (t : String) (changing : Bool) (vs : Viewstamp) (req : ρ) :
    Group σ ρ × Bool :=
  let out := ({ g.node t with inviewchange := changing } : Node σ).invoke execute vs req
  ({ node := Function.update g.node t out.1
     executed := if out.2 then Function.update g.executed t (g.executed t ++ [(vs, req)])
       else g.executed }, out.2)

/-- The loop of `client_invoke` over the members of the view.  The flag tells whether all
    answered OK; `none` is the call through a NULL handle. -/
def Group.forward (p : String) (call : ClientCall ρ) :
    Group σ ρ → List String → Option (Group σ ρ × Bool)
  | g, [] => some (g, true)
  | g, t :: rest =>
      if t = (g.node p).myaddr then Group.forward p call g rest
      else
        match call.delivery t with
        | .unbound => none
        | .lost => some (g, false)
        | .handled changing answered =>
            let out := g.invokeAt execute t changing (g.node p).myvs call.req
            if answered && out.2 then Group.forward p call out.1 rest else some (out.1, false)

/-- The primary executes the request itself. -/
def Group.executeAt (g : Group σ ρ) (p : String) (req : ρ) : Group σ ρ × β :=
  let n := g.node p
  let done := execute req n.svc
  ({ node := Function.update g.node p { n with svc := done.1 }
     executed := Function.update g.executed p (g.executed p ++ [(n.myvs, req)]) }, done.2)

/-- `client_invoke` at node `p`. -/
def Group.clientInvoke (g : Group σ ρ) (p : String) (call : ClientCall ρ) :
    Option (Group σ ρ × Answer β) :=
  if (g.node p).inviewchange then some (g, .busy)
  else if (g.node p).amiprimary = false then some (g, .notPrimary)
  else
    (Group.forward execute p call g (getView (g.node p).acc (g.node p).vidCommit)).map fun out =>
      if out.2 then
        let done := out.1.executeAt execute p call.req
        (done.1, .ok done.2)
      else (out.1, .busy)

/-- Calls one after the other; the flag tells whether the last one returned OK. -/
def Group.run (g : Group σ ρ) (p : String) (calls : List (ClientCall ρ)) :
    Option (Group σ ρ × Bool) :=
  calls.foldlM (fun state call =>
    (state.1.clientInvoke execute p call).map fun out => (out.1, out.2.isOk)) (g, false)

end Handlers

/-! ### What the deliveries of a call decide -/

section Deliveries

variable {ρ : Type}

/-- Every other member answers OK. -/
def ClientCall.succeeds (call : ClientCall ρ) (p : String) (values : List String) : Bool :=
  values.all fun t => t == p || call.delivery t == .handled false true

/-- The backups whose handler accepts the request: the members up to the first that does
    not answer OK, that one included if only its answer is missing. -/
def ClientCall.reached (call : ClientCall ρ) (p : String) : List String → List String
  | [] => []
  | t :: rest =>
      if t = p then call.reached p rest
      else
        match call.delivery t with
        | .handled false true => t :: call.reached p rest
        | .handled false false => [t]
        | _ => []

/-- How often a member executes the request of a call. -/
def ClientCall.executions (call : ClientCall ρ) (p : String) (values : List String) (m : String) :
    Nat :=
  if m = p then (if call.succeeds p values then 1 else 0) else (call.reached p values).count m

theorem ClientCall.not_mem_reached (call : ClientCall ρ) (p : String) (values : List String) :
    p ∉ call.reached p values := by
  induction values with
  | nil => exact List.not_mem_nil
  | cons t rest ih =>
      rw [reached]
      split
      · exact ih
      · rename_i hne
        have hne' : p ≠ t := fun heq => hne heq.symm
        split
        · simp [hne', ih]
        · simp [hne']
        · exact List.not_mem_nil

theorem ClientCall.count_reached_self (call : ClientCall ρ) (p : String) (values : List String) :
    (call.reached p values).count p = 0 :=
  List.count_eq_zero.mpr (call.not_mem_reached p values)

/-- A call that succeeds reaches every backup. -/
theorem ClientCall.mem_reached {call : ClientCall ρ} {p : String} {values : List String}
    (h : call.succeeds p values = true) {b : String} (hb : b ∈ values) (hne : b ≠ p) :
    b ∈ call.reached p values := by
  induction values with
  | nil => cases hb
  | cons t rest ih =>
      simp only [succeeds, List.all_cons, Bool.and_eq_true, Bool.or_eq_true, beq_iff_eq] at h
      obtain ⟨ht, hrest⟩ := h
      rw [reached]
      by_cases htp : t = p
      · rw [if_pos htp]
        rcases List.mem_cons.mp hb with rfl | hb
        · exact absurd htp hne
        · exact ih hrest hb
      · rw [if_neg htp, ht.resolve_left htp]
        rcases List.mem_cons.mp hb with rfl | hb
        · exact List.mem_cons_self
        · exact List.mem_cons_of_mem _ (ih hrest hb)

end Deliveries

/-! ### One view -/

section OneView

variable {σ ρ β : Type} (execute : ρ → σ → σ × β) {p : String} {vid : Nat} {values : List String}

/-- A replica in a view change accepts nothing. -/
theorem Node.invoke_of_changing {n : Node σ} (h : n.inviewchange = true) (vs : Viewstamp)
    (req : ρ) : n.invoke execute vs req = (n, false) := by
  rw [Node.invoke, if_pos h]

/-- A backup accepts the viewstamp it expects. -/
theorem Node.invoke_of_backup {n : Node σ} (hserving : n.inviewchange = false)
    (hbackup : n.primary ≠ n.myaddr) {vs : Viewstamp} (hvs : n.myvs = vs) (req : ρ) :
    n.invoke execute vs req = ({ n with svc := (execute req n.svc).1 }, true) := by
  have hami : n.amiprimary = false := by simp [Node.amiprimary, hbackup]
  rw [Node.invoke, hserving, hami, hvs]
  simp

/-- The members of view `vid` after the view change: `p` is the primary and serves, and
    every replica expects the first viewstamp of the view. -/
structure Group.InView (g : Group σ ρ) (p : String) (vid : Nat) (values : List String) :
    Prop where
  view : getView (g.node p).acc (g.node p).vidCommit = values
  myaddr : (g.node p).myaddr = p
  primary : (g.node p).primary = p
  serving : (g.node p).inviewchange = false
  stamp : (g.node p).myvs = ⟨vid, 1⟩
  backups : ∀ b ∈ values, b ≠ p →
    (g.node b).myaddr = b ∧ (g.node b).primary = p ∧ (g.node b).myvs = ⟨vid, 1⟩

/-- A view is untouched by what changes no viewstamp, primary, address or view of a
    replica, nor the flag of the primary. -/
theorem Group.InView.of_same {g next : Group σ ρ} (h : g.InView p vid values)
    (hview : getView (next.node p).acc (next.node p).vidCommit =
      getView (g.node p).acc (g.node p).vidCommit)
    (hserving : (next.node p).inviewchange = (g.node p).inviewchange)
    (hsame : ∀ m, (next.node m).myaddr = (g.node m).myaddr ∧
      (next.node m).primary = (g.node m).primary ∧ (next.node m).myvs = (g.node m).myvs) :
    next.InView p vid values where
  view := hview.trans h.view
  myaddr := (hsame p).1.trans h.myaddr
  primary := (hsame p).2.1.trans h.primary
  serving := hserving.trans h.serving
  stamp := (hsame p).2.2.trans h.stamp
  backups := by
    intro b hb hne
    obtain ⟨haddr, hprimary, hstamp⟩ := h.backups b hb hne
    exact ⟨(hsame b).1.trans haddr, (hsame b).2.1.trans hprimary, (hsame b).2.2.trans hstamp⟩

/-- A backup that is not in a view change accepts every request of the view. -/
theorem Group.InView.invokeAt {g : Group σ ρ} (h : g.InView p vid values) {t : String}
    (ht : t ∈ values) (hne : t ≠ p) (changing : Bool) (req : ρ) :
    (g.invokeAt execute t changing ⟨vid, 1⟩ req).1.InView p vid values ∧
      (g.invokeAt execute t changing ⟨vid, 1⟩ req).2 = !changing ∧
      ∀ m, (g.invokeAt execute t changing ⟨vid, 1⟩ req).1.executed m =
        g.executed m ++ List.replicate (if m = t ∧ changing = false then 1 else 0)
          (⟨vid, 1⟩, req) := by
  obtain ⟨haddr, hprimary, hstamp⟩ := h.backups t ht hne
  have hpt : p ≠ t := fun heq => hne heq.symm
  -- whatever becomes of the service state of the backup, the view stays
  have hstays : ∀ (svc : σ) (executed : String → List (Viewstamp × ρ)),
      (Group.mk (Function.update g.node t { g.node t with inviewchange := changing, svc := svc })
        executed).InView p vid values := by
    intro svc executed
    refine h.of_same ?_ ?_ ?_
    · simp [Function.update_of_ne hpt]
    · simp [Function.update_of_ne hpt]
    · intro m
      by_cases hm : m = t
      · subst hm
        simp [Node.myaddr]
      · simp [Function.update_of_ne hm]
  cases changing with
  | true =>
      rw [Group.invokeAt, Node.invoke_of_changing execute rfl]
      exact ⟨hstays (g.node t).svc g.executed, rfl, fun m => by simp⟩
  | false =>
      have hbackup : ({ g.node t with inviewchange := false } : Node σ).primary ≠
          ({ g.node t with inviewchange := false } : Node σ).myaddr := by
        change (g.node t).primary ≠ (g.node t).myaddr
        rw [haddr, hprimary]
        exact hpt
      rw [Group.invokeAt, Node.invoke_of_backup execute rfl hbackup hstamp]
      refine ⟨hstays _ _, rfl, fun m => ?_⟩
      by_cases hm : m = t
      · subst hm
        simp
      · simp [hm]

/-- The primary's own execution keeps the view. -/
theorem Group.InView.executeAt {g : Group σ ρ} (h : g.InView p vid values) (req : ρ) :
    (g.executeAt execute p req).1.InView p vid values := by
  refine h.of_same ?_ ?_ ?_
  · simp [Group.executeAt]
  · simp [Group.executeAt]
  · intro m
    by_cases hm : m = p
    · subst hm
      simp [Group.executeAt, Node.myaddr]
    · simp [Group.executeAt, hm]

/-- **The forwarding loop.**  It succeeds when every other member answers OK, and the
    backups it reaches execute the request. -/
theorem Group.InView.forward {call : ClientCall ρ} {todo : List String}
    (hsub : ∀ t ∈ todo, t ∈ values) (hbound : ∀ t, call.delivery t ≠ .unbound) :
    ∀ {g : Group σ ρ}, g.InView p vid values →
      ∃ next, Group.forward execute p call g todo = some (next, call.succeeds p todo) ∧
        next.InView p vid values ∧
        ∀ m, next.executed m =
          g.executed m ++ List.replicate ((call.reached p todo).count m) (⟨vid, 1⟩, call.req) := by
  induction todo with
  | nil =>
      intro g h
      exact ⟨g, rfl, h, fun m => by simp [ClientCall.reached]⟩
  | cons t rest ih =>
      intro g h
      have hsub' : ∀ t' ∈ rest, t' ∈ values := fun t' ht' => hsub t' (List.mem_cons_of_mem _ ht')
      rw [Group.forward, h.myaddr]
      by_cases htp : t = p
      · obtain ⟨next, hforward, hnext⟩ := ih hsub' h
        refine ⟨next, ?_, ?_⟩
        · simp [hforward, ClientCall.succeeds, htp]
        · simpa [ClientCall.reached, if_pos htp] using hnext
      · rw [if_neg htp, h.stamp]
        have hdelivery := hbound t
        cases hd : call.delivery t with
        | unbound => exact absurd hd hdelivery
        | lost =>
            refine ⟨g, ?_, h, ?_⟩
            · simp [ClientCall.succeeds, htp, hd]
            · simp [ClientCall.reached, htp, hd]
        | handled changing answered =>
            obtain ⟨hview, hok, hexecuted⟩ := h.invokeAt execute (hsub t List.mem_cons_self) htp
              changing call.req
            by_cases hgo : answered = true ∧ changing = false
            · obtain ⟨rfl, rfl⟩ := hgo
              obtain ⟨next, hforward, hnext, hcount⟩ := ih hsub' hview
              refine ⟨next, ?_, hnext, fun m => ?_⟩
              · simp [hok, hforward, ClientCall.succeeds, hd]
              · rw [hcount, hexecuted, ClientCall.reached, if_neg htp, hd, List.append_assoc,
                  List.replicate_append_replicate]
                by_cases hm : m = t
                · subst hm
                  simp [Nat.add_comm]
                · simp [hm, List.count_cons_of_ne (Ne.symm hm)]
            · -- the loop stops at `t`, which has executed the request if it was not in a
              -- view change
              refine ⟨_, ?_, hview, fun m => ?_⟩
              · have hstop : (answered && !changing) = false := by
                  rw [Bool.eq_false_iff]
                  simpa using hgo
                have hfails : call.delivery t ≠ .handled false true := by
                  rw [hd]
                  rintro ⟨⟩
                  exact hgo ⟨rfl, rfl⟩
                simp [hok, hstop, ClientCall.succeeds, hfails, htp]
              · rw [hexecuted, ClientCall.reached, if_neg htp, hd]
                cases changing with
                | true => simp
                | false =>
                    cases answered with
                    | true => exact absurd ⟨rfl, rfl⟩ hgo
                    | false =>
                        by_cases hm : m = t
                        · subst hm
                          simp
                        · simp [hm, List.count_cons_of_ne (Ne.symm hm)]

/-- One call: every member executes the request as often as the deliveries say, and the
    call returns OK when every other member does. -/
theorem Group.InView.clientInvoke {g : Group σ ρ} (h : g.InView p vid values)
    {call : ClientCall ρ} (hbound : ∀ t, call.delivery t ≠ .unbound) :
    ∃ next answer, g.clientInvoke execute p call = some (next, answer) ∧
      answer.isOk = call.succeeds p values ∧ next.InView p vid values ∧
      ∀ m, next.executed m =
        g.executed m ++ List.replicate (call.executions p values m) (⟨vid, 1⟩, call.req) := by
  obtain ⟨next, hforward, hnext, hcount⟩ := Group.InView.forward execute (fun t ht => ht) hbound h
  have hami : (g.node p).amiprimary = true := by
    simp [Node.amiprimary, h.primary, h.myaddr, h.serving]
  rw [Group.clientInvoke, h.serving, hami, h.view, hforward]
  cases hsucceeds : call.succeeds p values with
  | false =>
      refine ⟨next, .busy, by simp, rfl, hnext, fun m => ?_⟩
      rw [hcount]
      by_cases hm : m = p
      · subst hm
        simp [ClientCall.executions, hsucceeds, call.count_reached_self]
      · simp [ClientCall.executions, hm]
  | true =>
      refine ⟨(next.executeAt execute p call.req).1, .ok (next.executeAt execute p call.req).2,
        by simp, rfl, hnext.executeAt execute call.req, fun m => ?_⟩
      by_cases hm : m = p
      · subst hm
        simp [Group.executeAt, hcount, hnext.stamp, ClientCall.executions, hsucceeds,
          call.count_reached_self]
      · simp [Group.executeAt, hm, hcount, ClientCall.executions]

/-! ### Whole sequences of calls -/

/-- What member `m` executes in the course of the calls: every request with the first
    viewstamp of the view. -/
def history (p : String) (vid : Nat) (values : List String) (calls : List (ClientCall ρ))
    (m : String) : List (Viewstamp × ρ) :=
  calls.flatMap fun call => List.replicate (call.executions p values m) (⟨vid, 1⟩, call.req)

theorem history_append (calls : List (ClientCall ρ)) (call : ClientCall ρ) (m : String) :
    history p vid values (calls ++ [call]) m = history p vid values calls m ++
      List.replicate (call.executions p values m) (⟨vid, 1⟩, call.req) := by
  simp [history]

/-- How often member `m` executes a request in the course of the calls. -/
def totalExecutions (p : String) (values : List String) (calls : List (ClientCall ρ))
    (m : String) : Nat :=
  (calls.map fun call => call.executions p values m).sum

theorem length_history (calls : List (ClientCall ρ)) (m : String) :
    (history p vid values calls m).length = totalExecutions p values calls m := by
  simp [history, totalExecutions, List.length_flatMap]

theorem map_fst_history (calls : List (ClientCall ρ)) (m : String) :
    (history p vid values calls m).map Prod.fst =
      List.replicate (totalExecutions p values calls m) ⟨vid, 1⟩ := by
  rw [List.eq_replicate_iff, List.length_map, length_history]
  refine ⟨rfl, fun vs hvs => ?_⟩
  simp only [history, List.mem_map, List.mem_flatMap, List.mem_replicate] at hvs
  obtain ⟨entry, ⟨call, -, -, rfl⟩, rfl⟩ := hvs
  rfl

/-- Running the calls of a view from the state right after the view change. -/
theorem Group.InView.run {g : Group σ ρ} (h : g.InView p vid values)
    (hfresh : ∀ m, g.executed m = []) {calls : List (ClientCall ρ)}
    (hbound : ∀ call ∈ calls, ∀ t, call.delivery t ≠ .unbound) :
    ∃ next ok, g.run execute p calls = some (next, ok) ∧ next.InView p vid values ∧
      (∀ m, next.executed m = history p vid values calls m) ∧
      (ok = true → ∃ before last, calls = before ++ [last] ∧ last.succeeds p values = true) := by
  induction calls using List.reverseRecOn with
  | nil => exact ⟨g, false, rfl, h, fun m => by rw [hfresh]; rfl, nofun⟩
  | append_singleton calls call ih =>
      obtain ⟨mid, midOk, hrun, hmid, hexecuted, -⟩ :=
        ih fun c hc => hbound c (List.mem_append_left _ hc)
      obtain ⟨next, answer, hcall, hok, hnext, hcount⟩ :=
        hmid.clientInvoke execute (hbound call (by simp))
      refine ⟨next, answer.isOk, ?_, hnext, ?_, ?_⟩
      · rw [Group.run, List.foldlM_append] at *
        rw [hrun]
        simp [hcall]
      · intro m
        rw [hcount, hexecuted, history_append]
      · intro hanswer
        exact ⟨calls, call, rfl, hok.symm.trans hanswer⟩

/-- Ordered, once-only execution, after every prefix of the calls: the viewstamps of the
    primary's executions are distinct, those of each backup are `(vid, 1)`, `(vid, 2)` and so
    on, and after a call that returned OK each backup has executed the same requests as the
    primary. -/
def OnceOnly (g : Group σ ρ) (p : String) (vid : Nat) (values : List String)
    (calls : List (ClientCall ρ)) : Prop :=
  ∀ (before : List (ClientCall ρ)) (next : Group σ ρ) (ok : Bool), before <+: calls →
    g.run execute p before = some (next, ok) →
    ((next.executed p).map Prod.fst).Nodup ∧
      (∀ b ∈ values, b ≠ p → (next.executed b).map Prod.fst =
        (List.range (next.executed b).length).map fun i => ⟨vid, i + 1⟩) ∧
      (ok = true → ∀ b ∈ values, b ≠ p →
        (next.executed b).map Prod.snd = (next.executed p).map Prod.snd)

/-- Equal viewstamps are consecutive only if there is at most one. -/
theorem replicate_eq_range_iff {vid n : Nat} :
    List.replicate n (⟨vid, 1⟩ : Viewstamp) = (List.range n).map (fun i => ⟨vid, i + 1⟩) ↔
      n ≤ 1 := by
  constructor
  · intro h
    by_contra hlt
    have hsecond := congrArg (fun l => l[1]?) h
    simp [show 1 < n by omega] at hsecond
  · intro h
    obtain rfl | rfl : n = 0 ∨ n = 1 := by omega
    · rfl
    · rfl

theorem totalExecutions_le_of_isPrefix {before calls : List (ClientCall ρ)} (h : before <+: calls)
    (m : String) : totalExecutions p values before m ≤ totalExecutions p values calls m := by
  obtain ⟨rest, rfl⟩ := h
  simp [totalExecutions]

/-- A member that executes at most one request, and one of the last call, has executed
    exactly that. -/
theorem history_eq_singleton {before : List (ClientCall ρ)} {last : ClientCall ρ} {m : String}
    (htotal : totalExecutions p values (before ++ [last]) m ≤ 1)
    (hlast : 1 ≤ last.executions p values m) :
    history p vid values (before ++ [last]) m = [(⟨vid, 1⟩, last.req)] := by
  have hsum : totalExecutions p values (before ++ [last]) m =
      totalExecutions p values before m + last.executions p values m := by
    simp [totalExecutions]
  have hbefore : history p vid values before m = [] := by
    rw [← List.length_eq_zero_iff, length_history]
    omega
  have hone : last.executions p values m = 1 := by omega
  rw [history_append, hbefore, hone]
  rfl

end OneView

/-- **Once-only execution.**  In a view, the calls at the primary are executed in order and
    once only exactly when their deliveries let every member, the primary included, execute
    at most one request. -/
theorem once_only_iff {σ ρ β : Type} (execute : ρ → σ → σ × β) {g : Group σ ρ} {p : String}
    {vid : Nat} {values : List String} (h : g.InView p vid values)
    (hfresh : ∀ m, g.executed m = []) {calls : List (ClientCall ρ)}
    (hbound : ∀ call ∈ calls, ∀ t, call.delivery t ≠ .unbound) :
    OnceOnly execute g p vid values calls ↔
      ∀ m, m = p ∨ m ∈ values → totalExecutions p values calls m ≤ 1 := by
  constructor
  · intro honce m hm
    obtain ⟨next, ok, hrun, -, hexecuted, -⟩ := h.run execute hfresh hbound
    obtain ⟨hprimary, hbackups, -⟩ := honce calls next ok List.prefix_rfl hrun
    by_cases hmp : m = p
    · subst hmp
      rw [hexecuted, map_fst_history] at hprimary
      exact List.nodup_replicate.mp hprimary
    · have hbackup := hbackups m (hm.resolve_left hmp) hmp
      rw [hexecuted, map_fst_history, length_history] at hbackup
      exact replicate_eq_range_iff.mp hbackup
  · intro htotal before next ok hinit hrun
    obtain ⟨next', ok', hrun', -, hexecuted, hlast⟩ := h.run execute hfresh
      fun call hcall => hbound call (hinit.subset hcall)
    obtain ⟨rfl, rfl⟩ := Prod.mk.inj (Option.some.inj (hrun'.symm.trans hrun))
    have htotal' : ∀ m, m = p ∨ m ∈ values → totalExecutions p values before m ≤ 1 :=
      fun m hm => (totalExecutions_le_of_isPrefix hinit m).trans (htotal m hm)
    refine ⟨?_, ?_, ?_⟩
    · rw [hexecuted, map_fst_history]
      exact List.nodup_replicate.mpr (htotal' p (.inl rfl))
    · intro b hb hne
      rw [hexecuted, map_fst_history, length_history]
      exact replicate_eq_range_iff.mpr (htotal' b (.inr hb))
    · intro hok b hb hne
      obtain ⟨earlier, last, rfl, hsucceeds⟩ := hlast hok
      have hp : 1 ≤ last.executions p values p := by simp [ClientCall.executions, hsucceeds]
      have hb' : 1 ≤ last.executions p values b := by
        rw [ClientCall.executions, if_neg hne]
        exact List.count_pos_iff.mpr (ClientCall.mem_reached hsucceeds hb hne)
      rw [hexecuted, hexecuted, history_eq_singleton (htotal' b (.inr hb)) hb',
        history_eq_singleton (htotal' p (.inl rfl)) hp]

/-! ### All or nothing

What a call does at the primary is decided by the answers of the other members, up to the
first that is not OK.  `safebind` may return NULL, and `client_invoke` calls through what it
gets. -/

/-- What `client_invoke` finds out about one other member. -/
inductive BackupOutcome where
  | bindFails
  | timesOut
  | err
  | ok
deriving DecidableEq, Repr

section AllOrNothing

variable {σ ρ β : Type} (execute : ρ → σ → σ × β) {p : String}

/-- Whether `invoke` executes a request with this viewstamp. -/
def Node.accepts (n : Node σ) (changing : Bool) (vs : Viewstamp) : Bool :=
  !changing && n.primary != n.myaddr && vs == n.myvs

def Group.outcome (g : Group σ ρ) (p : String) (call : ClientCall ρ) (t : String) :
    BackupOutcome :=
  match call.delivery t with
  | .unbound => .bindFails
  | .lost => .timesOut
  | .handled changing answered =>
      if answered then
        if (g.node t).accepts changing (g.node p).myvs then .ok else .err
      else .timesOut

/-- The first other member that does not answer OK. -/
def Group.firstFailure (g : Group σ ρ) (p : String) (call : ClientCall ρ)
    (values : List String) : Option String :=
  values.find? fun t => t != p && g.outcome p call t != .ok

/-- The call returns; OK and the local execution go with the answers of all other members, and
    otherwise the service state is as before. -/
def Group.AllOrNothing (g : Group σ ρ) (p : String) (call : ClientCall ρ) : Prop :=
  ∃ next answer, g.clientInvoke execute p call = some (next, answer) ∧
    (next.node p).myvs = (g.node p).myvs ∧
    if ∀ t ∈ getView (g.node p).acc (g.node p).vidCommit, t ≠ p → g.outcome p call t = .ok then
      answer = .ok (execute call.req (g.node p).svc).2 ∧
        (next.node p).svc = (execute call.req (g.node p).svc).1
    else answer = .busy ∧ (next.node p).svc = (g.node p).svc

theorem Node.invoke_accepts (n : Node σ) (changing : Bool) (vs : Viewstamp) (req : ρ) :
    (({ n with inviewchange := changing } : Node σ).invoke execute vs req).2 =
      n.accepts changing vs := by
  cases changing with
  | true => simp [Node.invoke, Node.accepts]
  | false =>
      have hami : ({ n with inviewchange := false } : Node σ).amiprimary =
          (n.primary == n.myaddr) := by
        simp [Node.amiprimary, Node.myaddr]
      simp only [Node.invoke, Node.accepts, hami]
      by_cases hprimary : n.primary = n.myaddr
      · simp [hprimary]
      · by_cases hvs : vs = n.myvs
        · simp [hprimary, hvs]
        · simp [hprimary, hvs]

/-- What the forwarding loop leaves as it is: all of the primary, and what decides whether a
    backup accepts a request. -/
structure Group.Agrees (g next : Group σ ρ) (p : String) : Prop where
  primary : next.node p = g.node p
  accepts : ∀ m changing vs, (next.node m).accepts changing vs = (g.node m).accepts changing vs

theorem Group.Agrees.invokeAt {g next : Group σ ρ} (h : g.Agrees next p) {t : String}
    (hne : t ≠ p) (changing : Bool) (vs : Viewstamp) (req : ρ) :
    g.Agrees (next.invokeAt execute t changing vs req).1 p := by
  constructor
  · rw [← h.primary]
    exact Function.update_of_ne (Ne.symm hne) _ _
  · intro m changing' vs'
    rw [← h.accepts]
    by_cases hm : m = t
    · subst hm
      simp only [Group.invokeAt, Function.update_self, Node.invoke]
      split_ifs <;> rfl
    · simp [Group.invokeAt, Function.update_of_ne hm]

/-- The loop goes through the members up to the first failure. -/
theorem Group.Agrees.forward {g : Group σ ρ} (haddr : (g.node p).myaddr = p)
    (call : ClientCall ρ) (todo : List String) : ∀ {next : Group σ ρ}, g.Agrees next p →
      (g.firstFailure p call todo = none ∧ ∃ final, g.Agrees final p ∧
        Group.forward execute p call next todo = some (final, true)) ∨
      ∃ t, g.firstFailure p call todo = some t ∧
        (g.outcome p call t = .bindFails ∧ Group.forward execute p call next todo = none ∨
          g.outcome p call t ≠ .bindFails ∧ ∃ final, g.Agrees final p ∧
            Group.forward execute p call next todo = some (final, false)) := by
  induction todo with
  | nil =>
      intro next h
      exact .inl ⟨rfl, next, h, rfl⟩
  | cons t rest ih =>
      intro next h
      rw [Group.forward, h.primary, haddr]
      by_cases htp : t = p
      · have hskip : g.firstFailure p call (t :: rest) = g.firstFailure p call rest := by
          simp [Group.firstFailure, htp]
        rw [hskip, if_pos htp]
        exact ih h
      rw [if_neg htp]
      -- a member that does not answer OK is the first failure
      have hstop : g.outcome p call t ≠ .ok → g.firstFailure p call (t :: rest) = some t := by
        intro hfails
        simp [Group.firstFailure, htp, hfails]
      cases hd : call.delivery t with
      | unbound =>
          have hout : g.outcome p call t = .bindFails := by simp [Group.outcome, hd]
          exact .inr ⟨t, hstop (by simp [hout]), .inl ⟨hout, rfl⟩⟩
      | lost =>
          have hout : g.outcome p call t = .timesOut := by simp [Group.outcome, hd]
          exact .inr ⟨t, hstop (by simp [hout]), .inr ⟨by simp [hout], next, h, rfl⟩⟩
      | handled changing answered =>
          have hafter := h.invokeAt execute htp changing (g.node p).myvs call.req
          have hanswer : (next.invokeAt execute t changing (g.node p).myvs call.req).2 =
              (g.node t).accepts changing (g.node p).myvs :=
            (Node.invoke_accepts execute (next.node t) changing _ _).trans (h.accepts t changing _)
          dsimp only
          rw [hanswer]
          by_cases hok : g.outcome p call t = .ok
          · have hskip : g.firstFailure p call (t :: rest) = g.firstFailure p call rest := by
              simp [Group.firstFailure, hok]
            have hboth : (answered && (g.node t).accepts changing (g.node p).myvs) = true := by
              simp only [Group.outcome, hd] at hok
              split_ifs at hok with hanswered haccepts
              rw [hanswered, haccepts]
              rfl
            rw [hskip, if_pos hboth]
            exact ih hafter
          · have hnot : ¬ (answered && (g.node t).accepts changing (g.node p).myvs) = true := by
              intro hboth
              obtain ⟨hanswered, haccepts⟩ := Bool.and_eq_true_iff.mp hboth
              exact hok (by simp [Group.outcome, hd, hanswered, haccepts])
            have hbound : g.outcome p call t ≠ .bindFails := by
              simp only [Group.outcome, hd]
              split_ifs <;> simp
            rw [if_neg hnot]
            exact .inr ⟨t, hstop hok, .inr ⟨hbound, _, hafter, rfl⟩⟩

/-- **All or nothing at the primary**, exactly if `safebind` does not fail at the first member that
    does not answer OK. -/
theorem Group.allOrNothing_iff {g : Group σ ρ} (haddr : (g.node p).myaddr = p)
    (hactive : (g.node p).amiprimary = true) (call : ClientCall ρ) :
    g.AllOrNothing execute p call ↔
      ∀ t, g.firstFailure p call (getView (g.node p).acc (g.node p).vidCommit) = some t →
        g.outcome p call t ≠ .bindFails := by
  have hserving : (g.node p).inviewchange = false := by
    simp only [Node.amiprimary, Bool.and_eq_true, Bool.not_eq_true'] at hactive
    exact hactive.2
  have hcall : g.clientInvoke execute p call =
      (Group.forward execute p call g (getView (g.node p).acc (g.node p).vidCommit)).map fun out =>
        if out.2 then
          ((out.1.executeAt execute p call.req).1, .ok (out.1.executeAt execute p call.req).2)
        else (out.1, .busy) := by
    rw [Group.clientInvoke, hserving, hactive]
    rfl
  have hself : g.Agrees g p := ⟨rfl, fun _ _ _ => rfl⟩
  rcases Group.Agrees.forward execute haddr call
      (getView (g.node p).acc (g.node p).vidCommit) hself with
    ⟨hnone, final, hfinal, hforward⟩ | ⟨t, hsome, hstop⟩
  · -- every other member answers OK
    have hall : ∀ t ∈ getView (g.node p).acc (g.node p).vidCommit, t ≠ p →
        g.outcome p call t = .ok := by
      simpa [Group.firstFailure] using hnone
    rw [hnone]
    constructor
    · intro _ t ht
      cases ht
    · intro _
      refine ⟨_, _, by rw [hcall, hforward]; rfl, ?_⟩
      rw [if_pos hall]
      simp [Group.executeAt, hfinal.primary]
  · have hnot : ¬ ∀ t ∈ getView (g.node p).acc (g.node p).vidCommit, t ≠ p →
        g.outcome p call t = .ok := by
      intro hall
      have hfails := List.find?_some hsome
      simp only [Bool.and_eq_true, bne_iff_ne, ne_eq] at hfails
      exact hfails.2 (hall t (List.mem_of_find?_eq_some hsome) hfails.1)
    rcases hstop with ⟨hbind, hforward⟩ | ⟨hbind, final, hfinal, hforward⟩
    · refine ⟨?_, fun h => absurd hbind (h t hsome)⟩
      rintro ⟨next, answer, hreturns, -⟩
      rw [hcall, hforward] at hreturns
      cases hreturns
    · refine ⟨fun _ t' ht' => ?_, fun _ => ?_⟩
      · rw [hsome, Option.some.injEq] at ht'
        exact ht' ▸ hbind
      · refine ⟨final, .busy, by rw [hcall, hforward]; rfl, ?_⟩
        rw [if_neg hnot, hfinal.primary]
        exact ⟨rfl, rfl, rfl⟩

end AllOrNothing

/-! ### Concrete views -/

/-- A replica of the view of `a` and `b`, with a counter as its service. -/
def counterNode (me : String) : Node Nat where
  acc := (Acceptor.blank me []).commit 1 "a b "
  upcalls := []
  myvid := 1
  mems := ["a", "b"]
  changes := []
  svc := 0
  myvs := ⟨1, 1⟩
  lastMyvs := ⟨0, 0⟩
  primary := "a"
  insync := false
  inviewchange := false
  vidCommit := 1
  vidInsync := 1
  backups := []
  pc := .resting

def counterGroup : Group Nat Nat where
  node := counterNode
  executed := fun _ => []

theorem counterGroup_inView : counterGroup.InView "a" 1 ["a", "b"] where
  view := by decide
  myaddr := rfl
  primary := rfl
  serving := rfl
  stamp := rfl
  backups := fun _ _ _ => ⟨rfl, rfl, rfl⟩

/-- Adding to the counter. -/
def addTo (req svc : Nat) : Nat × Nat := (svc + req, svc + req)

/-- A call whose RPCs are all answered. -/
def answeredCall (req : Nat) : ClientCall Nat where
  req := req
  delivery := fun _ => .handled false true

theorem once_only_one_call :
    OnceOnly addTo counterGroup "a" 1 ["a", "b"] [answeredCall 1] :=
  (once_only_iff addTo counterGroup_inView (fun _ => rfl) (by simp [answeredCall])).mpr <| by
    rintro m (rfl | hm)
    · decide
    · obtain rfl | rfl : m = "a" ∨ m = "b" := by simpa using hm
      · decide
      · decide

/-- Two requests that both succeed are executed with the same viewstamp. -/
theorem second_request_reuses_viewstamp :
    ¬ ∀ (execute : Nat → Nat → Nat × Nat) (g : Group Nat Nat) (p : String) (vid : Nat)
      (values : List String) (calls : List (ClientCall Nat)), g.InView p vid values →
      (∀ m, g.executed m = []) → (∀ call ∈ calls, ∀ t, call.delivery t ≠ .unbound) →
      OnceOnly execute g p vid values calls := by
  intro hclaim
  have hbound : ∀ call ∈ [answeredCall 1, answeredCall 2], ∀ t, call.delivery t ≠ .unbound := by
    simp [answeredCall]
  obtain ⟨next, ok, hrun, -, hexecuted, -⟩ := counterGroup_inView.run addTo (fun _ => rfl) hbound
  obtain ⟨hprimary, -⟩ := hclaim addTo counterGroup "a" 1 ["a", "b"] _ counterGroup_inView
    (fun _ => rfl) hbound _ next ok List.prefix_rfl hrun
  rw [hexecuted] at hprimary
  exact absurd hprimary (by decide)

/-- A call whose RPCs all meet this fate. -/
def uniformCall (req : Nat) (delivery : Delivery) : ClientCall Nat where
  req := req
  delivery := fun _ => delivery

/-- The backup does not answer in time: BUSY, and the counter of the primary is as before. -/
theorem allOrNothing_timeout :
    counterGroup.AllOrNothing addTo "a" (uniformCall 1 (.handled false false)) :=
  (Group.allOrNothing_iff addTo rfl rfl _).mpr (by decide)

/-- `safebind` fails at the backup: the call goes through a null handle. -/
theorem null_handle_after_failed_bind :
    ¬ ∀ (execute : Nat → Nat → Nat × Nat) (g : Group Nat Nat) (p : String)
      (call : ClientCall Nat), (g.node p).myaddr = p → (g.node p).amiprimary = true →
      g.AllOrNothing execute p call := by
  intro hclaim
  obtain ⟨next, answer, hreturns, -⟩ :=
    hclaim addTo counterGroup "a" (uniformCall 1 .unbound) rfl rfl
  have hnull : counterGroup.clientInvoke addTo "a" (uniformCall 1 .unbound) = none := rfl
  rw [hnull] at hreturns
  cases hreturns

end DistributedLab.Rsm
