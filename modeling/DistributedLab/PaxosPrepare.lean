import DistributedLab.PaxosCalls
import Mathlib.Data.List.Perm.Basic

/-!
# Quorums and the value of phase two

`proposer::prepare` asks the nodes one after the other, collects those that accept, and keeps
the value with the highest proposal number that it has been told.  The running maximum begins
with `(0, "")`, and an acceptor without a value reports `(0, me)` with the empty value, so
along the loop the empty value may replace the empty value.  What is left at the end is the
value of the highest number.

In the cluster the iterations of this loop are steps among others.  What the loop has computed
so far is the same.
-/

namespace DistributedLab.Paxos

open Transition

/-! ### Quorums -/

/-- **Quorum intersection**: two majorities of a list share a member of it, so two runs over the
    same list that get past the ends of their loops have a node in common.  An empty list has no
    majority. -/
theorem quorums_share_member :
    (∀ l1 a b, majority l1 a = true → majority l1 b = true → ∃ node ∈ l1, node ∈ a ∧ node ∈ b) ∧
      (∀ r r' next next' : Run, r.phase = .prepare → r.next = some next → r'.phase = .accept →
        r'.next = some next' → r'.curNodes = r.curNodes →
        ∃ node ∈ r.curNodes, node ∈ r.accepts ∧ node ∈ r'.accepts) ∧
      ∀ l2, majority [] l2 = false := by
  refine ⟨fun l1 a b => majority_intersect, ?_, fun l2 => by simp [majority]⟩
  intro r r' next next' _ hnext _ hnext' hnodes
  have hmajority := (Run.next_cases hnext').1
  rw [hnodes] at hmajority
  exact majority_intersect (Run.next_cases hnext).1 hmajority

/-- Two of the three positions of `a`, `b`, `b` and two of its two names. -/
theorem quorums_share_member_repeated :
    majority ["a", "b", "b"] ["b"] = true ∧ majority ["a", "b", "b"] ["a", "b"] = true ∧
      ∃ node ∈ ["a", "b", "b"], node ∈ ["b"] ∧ node ∈ ["a", "b"] :=
  ⟨by decide, by decide, quorums_share_member.1 _ _ _ (by decide) (by decide)⟩

/-! ### The loop of `prepare` -/

/-- What becomes of the prepare request to a node. -/
inductive PrepareOutcome where
  /-- `safebind` returns NULL. -/
  | unbound
  /-- The call does not return OK. -/
  | failed
  | answered (res : PrepareRes)
deriving DecidableEq, Repr

def PrepareOutcome.oldinstance : PrepareOutcome → Bool
  | .unbound => false
  | .failed => false
  | .answered res => res.oldinstance

/-- `proposer::run` when it calls `prepare`. -/
def Run.begin (inst : Nat) (curNodes : List String) (newv : String) : Run where
  inst := inst
  curNodes := curNodes
  newv := newv
  phase := .prepare
  nodes := curNodes
  index := 0
  pending := none
  accepts := []
  v := ""
  max := ⟨0, ""⟩

/-- The loop of `prepare` over the nodes with what becomes of their requests.  An answer
    `oldinstance` ends it with the value to commit. -/
def Run.prepareLoop (r : Run) : List (String × PrepareOutcome) → Except String Run
  | [] => .ok r
  | (_, .unbound) :: rest => r.advance.prepareLoop rest
  | (_, .failed) :: rest => r.advance.prepareLoop rest
  | (cid, .answered res) :: rest =>
      if res.oldinstance then .error res.vA
      else (r.onPrepare cid res).advance.prepareLoop rest

/-- `proposer::prepare`: what it returns, the variables of `run` and the acceptor of the node.
    `run` does not look at its variables when the result is false. -/
def Run.prepare (r : Run) (acc : Acceptor) (contacts : List (String × PrepareOutcome)) :
    Bool × Run × Acceptor :=
  match r.prepareLoop contacts with
  | .ok done => (true, done, acc)
  | .error v => (false, r, acc.commit r.inst v)

/-- The nodes that accept, with their answers. -/
def accepting : List (String × PrepareOutcome) → List (String × PrepareRes)
  | [] => []
  | (cid, .answered res) :: rest =>
      if res.accept then (cid, res) :: accepting rest else accepting rest
  | (_, .unbound) :: rest => accepting rest
  | (_, .failed) :: rest => accepting rest

theorem accepting_append (l₁ l₂ : List (String × PrepareOutcome)) :
    accepting (l₁ ++ l₂) = accepting l₁ ++ accepting l₂ := by
  fun_induction accepting l₁ with
  | case1 => rfl
  | case2 cid res rest haccept ih => simp [accepting, haccept, ih]
  | case3 cid res rest hnot ih => simpa [accepting, hnot] using ih
  | case4 cid rest ih => simpa [accepting] using ih
  | case5 cid rest ih => simpa [accepting] using ih

theorem accepting_eq_flatMap (contacts : List (String × PrepareOutcome)) :
    accepting contacts = contacts.flatMap fun contact => accepting [contact] := by
  induction contacts with
  | nil => rfl
  | cons contact rest ih =>
      rw [List.flatMap_cons, ← ih, ← accepting_append]
      rfl

theorem accepting_perm {l₁ l₂ : List (String × PrepareOutcome)} (h : l₁.Perm l₂) :
    (accepting l₁).Perm (accepting l₂) := by
  rw [accepting_eq_flatMap l₁, accepting_eq_flatMap l₂]
  exact h.flatMap_right _

/-- The running maximum and the value that goes with it. -/
structure Run.Tallied (answers : List PrepareRes) (r : Run) : Prop where
  bound : ∀ res ∈ answers, res.nA ≤ r.max
  picked : r.max = ⟨0, ""⟩ ∧ r.v = "" ∨ ∃ res ∈ answers, res.nA = r.max ∧ res.vA = r.v

section Loop

variable {r : Run} {answers : List PrepareRes} {contacts : List (String × PrepareOutcome)}

theorem Run.Tallied.onPrepare (h : r.Tallied answers) (cid : String) {res : PrepareRes}
    (haccept : res.accept = true) : (r.onPrepare cid res).Tallied (answers ++ [res]) := by
  unfold Run.onPrepare
  rw [if_pos haccept]
  by_cases hgt : res.nA.gt r.max = true
  · rw [if_pos hgt]
    have hlt : r.max < res.nA := PropT.gt_eq_true.mp hgt
    refine ⟨?_, .inr ⟨res, by simp, rfl, rfl⟩⟩
    exact List.forall_mem_append.mpr
      ⟨fun other hother => (h.bound other hother).trans hlt.le,
        List.forall_mem_singleton.mpr le_rfl⟩
  · rw [if_neg hgt]
    have hle : res.nA ≤ r.max := not_lt.mp fun hlt => hgt (PropT.gt_eq_true.mpr hlt)
    refine ⟨List.forall_mem_append.mpr ⟨h.bound, List.forall_mem_singleton.mpr hle⟩, ?_⟩
    rcases h.picked with hnone | ⟨other, hother, hmax⟩
    · exact .inl hnone
    · exact .inr ⟨other, List.mem_append_left _ hother, hmax⟩

theorem Run.accepts_onPrepare (cid : String) {res : PrepareRes} (haccept : res.accept = true) :
    (r.onPrepare cid res).accepts = r.accepts ++ [cid] := by
  unfold Run.onPrepare
  rw [if_pos haccept]
  split <;> rfl

theorem Run.onPrepare_rejected (cid : String) {res : PrepareRes} (hnot : ¬ res.accept = true) :
    r.onPrepare cid res = r := by
  rw [Run.onPrepare, if_neg hnot]

theorem Run.onPrepare_frame (r : Run) (cid : String) (res : PrepareRes) :
    (r.onPrepare cid res).curNodes = r.curNodes ∧ (r.onPrepare cid res).newv = r.newv ∧
      (r.onPrepare cid res).nodes = r.nodes ∧ (r.onPrepare cid res).index = r.index := by
  unfold Run.onPrepare
  split
  · split <;> exact ⟨rfl, rfl, rfl, rfl⟩
  · exact ⟨rfl, rfl, rfl, rfl⟩

/-- What the loop leaves when nobody answers `oldinstance`. -/
structure Run.Prepared (r : Run) (answers : List PrepareRes)
    (contacts : List (String × PrepareOutcome)) (done : Run) : Prop where
  phase : done.phase = r.phase
  newv : done.newv = r.newv
  curNodes : done.curNodes = r.curNodes
  accepts : done.accepts = r.accepts ++ (accepting contacts).map Prod.fst
  tallied : done.Tallied (answers ++ (accepting contacts).map Prod.snd)

theorem Run.Prepared.of_advance {r' done : Run} {contact : String × PrepareOutcome}
    (h : r'.Prepared answers contacts done) (hr : r' = r.advance)
    (hnone : accepting [contact] = []) : r.Prepared answers (contact :: contacts) done := by
  have haccepting : accepting (contact :: contacts) = accepting contacts := by
    rw [← List.singleton_append, accepting_append, hnone, List.nil_append]
  subst hr
  refine ⟨h.phase, h.newv, h.curNodes, ?_, ?_⟩
  · rw [haccepting]
    exact h.accepts
  · rw [haccepting]
    exact h.tallied

theorem Run.prepareLoop_ok (h : r.Tallied answers)
    (hnew : ∀ contact ∈ contacts, contact.2.oldinstance = false) :
    ∃ done, r.prepareLoop contacts = .ok done ∧ r.Prepared answers contacts done := by
  induction contacts generalizing r answers with
  | nil => exact ⟨r, rfl, rfl, rfl, rfl, by simp [accepting], by simpa [accepting] using h⟩
  | cons contact rest ih =>
      obtain ⟨hfirst, hrest⟩ := List.forall_mem_cons.mp hnew
      obtain ⟨cid, outcome⟩ := contact
      have hadvance : r.advance.Tallied answers := ⟨h.bound, h.picked⟩
      cases outcome with
      | unbound =>
          obtain ⟨done, hloop, hdone⟩ := ih hadvance hrest
          exact ⟨done, hloop, hdone.of_advance rfl rfl⟩
      | failed =>
          obtain ⟨done, hloop, hdone⟩ := ih hadvance hrest
          exact ⟨done, hloop, hdone.of_advance rfl rfl⟩
      | answered res =>
          have hres : ¬ res.oldinstance = true := by
            rw [Bool.not_eq_true]
            exact hfirst
          rw [Run.prepareLoop, if_neg hres]
          by_cases haccept : res.accept = true
          · have htally := h.onPrepare cid haccept
            obtain ⟨hcurNodes, hnewv, -, -⟩ := r.onPrepare_frame cid res
            obtain ⟨done, hloop, hdone⟩ := @ih (r.onPrepare cid res).advance _
              ⟨htally.bound, htally.picked⟩ hrest
            refine ⟨done, hloop, ?_, hdone.newv.trans hnewv, hdone.curNodes.trans hcurNodes, ?_, ?_⟩
            · exact hdone.phase.trans (r.onPrepare_inst_phase cid res).2
            · rw [hdone.accepts]
              show (r.onPrepare cid res).accepts ++ _ = _
              rw [Run.accepts_onPrepare cid haccept]
              simp [accepting, haccept]
            · simpa [accepting, haccept] using hdone.tallied
          · rw [Run.onPrepare_rejected cid haccept]
            obtain ⟨done, hloop, hdone⟩ := ih hadvance hrest
            exact ⟨done, hloop, hdone.of_advance rfl (by simp [accepting, haccept])⟩

theorem Run.prepareLoop_append {before after : List (String × PrepareOutcome)} :
    r.prepareLoop (before ++ after) =
      match r.prepareLoop before with
      | .ok done => done.prepareLoop after
      | .error v => .error v := by
  induction before generalizing r with
  | nil => rfl
  | cons contact rest ih =>
      obtain ⟨cid, outcome⟩ := contact
      cases outcome with
      | unbound => exact ih
      | failed => exact ih
      | answered res =>
          simp only [List.cons_append, Run.prepareLoop]
          split_ifs
          · rfl
          · exact ih

end Loop

/-! ### The value that is picked -/

/-- The value that goes with the greatest number of the answers, or the empty one. -/
def Picks (answers : List PrepareRes) (v : String) : Prop :=
  answers = [] ∧ v = "" ∨
    ∃ res ∈ answers, (∀ other ∈ answers, other.nA ≤ res.nA) ∧ v = res.vA

/-- An acceptor has a value, which is not empty, exactly if it has accepted a proposal. -/
def PrepareRes.Coherent (res : PrepareRes) : Prop :=
  (res.nA.n = 0 → res.vA = "") ∧ (1 ≤ res.nA.n → res.vA ≠ "")

instance (res : PrepareRes) : Decidable res.Coherent :=
  inferInstanceAs (Decidable (_ ∧ _))

theorem PropT.zero_le (n : PropT) : ⟨0, ""⟩ ≤ n := by
  rcases Nat.eq_zero_or_pos n.n with hzero | hpos
  · have hempty : ¬ n.m < "" := fun h => List.not_lt_nil _ (String.lt_iff_toList_lt.mp h)
    exact PropT.le_iff.mpr (.inr ⟨hzero.symm, not_lt.mp hempty⟩)
  · exact PropT.le_iff.mpr (.inl hpos)

section Value

variable {answers answers' : List PrepareRes} {v v' : String}

/-- The empty value that the loop begins with is the one that goes with the number `(0, "")`. -/
theorem Run.Tallied.picks {r : Run} (h : r.Tallied answers)
    (hcoherent : ∀ res ∈ answers, res.Coherent) : Picks answers r.v := by
  rcases h.picked with ⟨hmax, hv⟩ | ⟨res, hres, hmax, hv⟩
  · cases hanswers : answers with
    | nil => exact .inl ⟨rfl, hv⟩
    | cons res rest =>
        have hres : res ∈ answers := by simp [hanswers]
        have hle := h.bound res hres
        rw [hmax] at hle
        refine .inr ⟨res, List.mem_cons_self, fun other hother => ?_, ?_⟩
        · have hother' := h.bound other (hanswers ▸ hother)
          rw [hmax] at hother'
          exact hother'.trans res.nA.zero_le
        · rw [hv, (hcoherent res hres).1 (Nat.le_zero.mp (PropT.n_le_of_le hle))]
  · exact .inr ⟨res, hres, hmax ▸ h.bound, hv.symm⟩

/-- Which of the nodes comes first makes no difference to the value. -/
theorem Picks.unique (h : Picks answers v) (h' : Picks answers' v')
    (hperm : answers'.Perm answers)
    (hsame : ∀ res ∈ answers, ∀ other ∈ answers, res.nA = other.nA → res.vA = other.vA) :
    v' = v := by
  rcases h with ⟨hnil, hv⟩ | ⟨res, hres, hmax, hv⟩
  · subst hnil
    rcases h' with ⟨_, hv'⟩ | ⟨res', hres', _⟩
    · rw [hv, hv']
    · exact absurd (hperm.mem_iff.mp hres') (List.not_mem_nil)
  · rcases h' with ⟨hnil', _⟩ | ⟨res', hres', hmax', hv'⟩
    · rw [hnil'] at hperm
      exact absurd (hperm.mem_iff.mpr hres) (List.not_mem_nil)
    · have hmem := hperm.mem_iff.mp hres'
      have heq : res'.nA = res.nA :=
        le_antisymm (hmax res' hmem) (hmax' res (hperm.mem_iff.mpr hres))
      rw [hv, hv', hsame res' hmem res hres heq]

end Value

theorem majority_perm {l1 l1' l2 l2' : List String} (h1 : l1'.Perm l1) (h2 : l2'.Perm l2) :
    majority l1' l2' = majority l1 l2 := by
  have hmember : ∀ node, isamember node l2' = isamember node l2 := fun node => by
    rw [Bool.eq_iff_iff, isamember_eq_true, isamember_eq_true]
    exact h2.mem_iff
  simp only [majority, hmember, h1.countP_eq, h1.length_eq]

theorem Run.next_v {r : Run} (h : r.phase = .prepare) :
    r.next.map Run.v =
      if majority r.curNodes r.accepts then some (if r.v = "" then r.newv else r.v) else none := by
  unfold Run.next
  rw [h]
  split_ifs <;> rfl

section Prepare

variable {inst : Nat} {curNodes : List String} {newv : String} {acc : Acceptor}
  {contacts : List (String × PrepareOutcome)}

theorem Run.begin_prepareLoop (inst : Nat) (curNodes : List String) (newv : String)
    (hnew : ∀ contact ∈ contacts, contact.2.oldinstance = false) :
    ∃ done, (Run.begin inst curNodes newv).prepareLoop contacts = .ok done ∧
      (Run.begin inst curNodes newv).Prepared [] contacts done :=
  Run.prepareLoop_ok ⟨List.forall_mem_nil _, .inl ⟨rfl, rfl⟩⟩ hnew

/-- The first answer `oldinstance` ends the loop. -/
theorem Run.begin_prepareLoop_old {cid : String} {res : PrepareRes}
    {before after : List (String × PrepareOutcome)}
    (hnew : ∀ contact ∈ before, contact.2.oldinstance = false) (hold : res.oldinstance = true) :
    (Run.begin inst curNodes newv).prepareLoop (before ++ (cid, .answered res) :: after) =
      .error res.vA := by
  obtain ⟨done, hdone, -⟩ := Run.begin_prepareLoop inst curNodes newv hnew
  rw [Run.prepareLoop_append, hdone]
  exact if_pos hold

theorem exists_first_old
    (h : ∃ contact ∈ contacts, contact.2.oldinstance = true) :
    ∃ before cid res after, contacts = before ++ (cid, .answered res) :: after ∧
      (∀ contact ∈ before, contact.2.oldinstance = false) ∧ res.oldinstance = true := by
  rcases hfind : contacts.find? (fun contact => contact.2.oldinstance) with _ | ⟨cid, outcome⟩
  · obtain ⟨contact, hcontact, hold⟩ := h
    exact absurd hold (List.find?_eq_none.mp hfind contact hcontact)
  · obtain ⟨hold, before, after, hcontacts, hnew⟩ := List.find?_eq_some_iff_append.mp hfind
    cases outcome with
    | unbound => cases hold
    | failed => cases hold
    | answered res => exact ⟨before, cid, res, after, hcontacts, by simpa using hnew, hold⟩

/-- What `run` sends in phase two, if it gets there. -/
theorem Run.Prepared.next_v {done : Run}
    (h : (Run.begin inst curNodes newv).Prepared [] contacts done) :
    done.next.map Run.v =
      if majority curNodes ((accepting contacts).map Prod.fst) then
        some (if done.v = "" then newv else done.v)
      else none := by
  rw [Run.next_v h.phase, h.curNodes, h.newv, h.accepts]
  rfl

end Prepare

/-- **The prepare phase picks the right value.**  If nobody answers `oldinstance`, `prepare`
    collects the nodes that accept, in the order of the list, and the value of the highest
    number among them; the value of phase two is the same for every order of the nodes.  The
    first answer `oldinstance` is committed for the instance of the run. -/
theorem prepare_picks_value (inst : Nat) (newv : String) (acc : Acceptor)
    (contacts : List (String × PrepareOutcome))
    (hcoherent : ∀ answer ∈ accepting contacts, answer.2.Coherent) :
    ((∀ contact ∈ contacts, contact.2.oldinstance = false) →
      ∃ done, (Run.begin inst (contacts.map Prod.fst) newv).prepare acc contacts =
          (true, done, acc) ∧
        done.accepts = (accepting contacts).map Prod.fst ∧
        Picks ((accepting contacts).map Prod.snd) done.v ∧
        ((∀ a ∈ accepting contacts, ∀ b ∈ accepting contacts,
            a.2.nA = b.2.nA → a.2.vA = b.2.vA) →
          ∀ contacts', contacts'.Perm contacts →
            ∃ done', (Run.begin inst (contacts'.map Prod.fst) newv).prepare acc contacts' =
                (true, done', acc) ∧
              done'.next.map Run.v = done.next.map Run.v)) ∧
      ((∃ contact ∈ contacts, contact.2.oldinstance = true) →
        ∃ before cid res after, contacts = before ++ (cid, .answered res) :: after ∧
          (∀ contact ∈ before, contact.2.oldinstance = false) ∧ res.oldinstance = true ∧
          (Run.begin inst (contacts.map Prod.fst) newv).prepare acc contacts =
            (false, Run.begin inst (contacts.map Prod.fst) newv, acc.commit inst res.vA)) := by
  have picks : ∀ {curNodes : List String} {contacts' : List (String × PrepareOutcome)} {done : Run},
      contacts'.Perm contacts → (Run.begin inst curNodes newv).Prepared [] contacts' done →
      Picks ((accepting contacts').map Prod.snd) done.v := fun hperm hdone => by
    refine hdone.tallied.picks fun res hres => ?_
    obtain ⟨answer, hanswer, rfl⟩ := List.mem_map.mp hres
    exact hcoherent answer ((accepting_perm hperm).mem_iff.mp hanswer)
  constructor
  · intro hnew
    obtain ⟨done, hloop, hdone⟩ := Run.begin_prepareLoop inst (contacts.map Prod.fst) newv hnew
    refine ⟨done, by rw [Run.prepare, hloop], hdone.accepts, picks (.refl _) hdone, ?_⟩
    intro hsame contacts' hperm
    obtain ⟨done', hloop', hdone'⟩ := Run.begin_prepareLoop inst (contacts'.map Prod.fst) newv
      fun contact hcontact => hnew contact (hperm.mem_iff.mp hcontact)
    have haccepting := accepting_perm hperm
    have hv : done'.v = done.v := by
      refine (picks (.refl _) hdone).unique (picks hperm hdone') (haccepting.map _) ?_
      intro res hres other hother heq
      obtain ⟨a, ha, rfl⟩ := List.mem_map.mp hres
      obtain ⟨b, hb, rfl⟩ := List.mem_map.mp hother
      exact hsame a ha b hb heq
    refine ⟨done', by rw [Run.prepare, hloop'], ?_⟩
    rw [hdone.next_v, hdone'.next_v, hv, majority_perm (hperm.map _) (haccepting.map _)]
  · intro hold
    obtain ⟨before, cid, res, after, rfl, hnew, hres⟩ := exists_first_old hold
    refine ⟨before, cid, res, after, rfl, hnew, hres, ?_⟩
    rw [Run.prepare, Run.begin_prepareLoop_old hnew hres]
    rfl

/-- One node without a value, two with values, one that cannot be reached. -/
theorem prepare_picks_value_four :
    let contacts := [("a", .answered { accept := true, nA := ⟨0, "a"⟩ }),
      ("b", .answered { accept := true, nA := ⟨2, "a"⟩, vA := "x" }), ("c", .unbound),
      ("d", .answered { accept := true, nA := ⟨1, "d"⟩, vA := "y" })]
    (∀ answer ∈ accepting contacts, answer.2.Coherent) ∧
      ∃ done, (Run.begin 1 (contacts.map Prod.fst) "z").prepare (.blank "a" []) contacts =
          (true, done, .blank "a" []) ∧
        done.accepts = ["a", "b", "d"] ∧ Picks ((accepting contacts).map Prod.snd) done.v := by
  intro contacts
  have hcoherent : ∀ answer ∈ accepting contacts, answer.2.Coherent := by decide
  obtain ⟨done, hprepare, haccepts, hpicks, -⟩ :=
    (prepare_picks_value 1 "z" (.blank "a" []) contacts hcoherent).1 (by decide)
  exact ⟨hcoherent, done, hprepare, haccepts, hpicks⟩

/-! ### The loop as steps of the cluster -/

/-- The variables of `run` without the call that is under way. -/
def Run.idle (r : Run) : Run := { r with pending := none }

theorem Run.idle_onPrepare (r : Run) (cid : String) (res : PrepareRes) :
    (r.idle.onPrepare cid res).advance = (r.onPrepare cid res).advance := by
  unfold Run.onPrepare Run.idle
  split_ifs <;> rfl

/-- The run has come so far by the loop of `prepare`, and waits for the node of this
    iteration. -/
structure Run.InLoop (r : Run) (calls : List Call) (p : String) : Prop where
  nodes : r.nodes = r.curNodes
  pending : ∀ call ∈ calls, call.clt = p → r.pending = some call.xid →
    r.nodes[r.index]? = some call.dst
  looped : ∃ contacts, contacts.map Prod.fst = r.curNodes.take r.index ∧
    (Run.begin r.inst r.curNodes r.newv).prepareLoop contacts = .ok r.idle

def Cluster.InLoops (s : Cluster) : Prop :=
  ∀ p r, (s.pro p).run = some r → r.phase = .prepare → r.InLoop s.calls p

section InLoops

variable {s t : Cluster} {p : String} {r : Run} {calls : List Call}

theorem Run.InLoop.start (inst : Nat) (curNodes : List String) (newv : String) :
    (Run.begin inst curNodes newv).InLoop calls p where
  nodes := rfl
  pending := fun _ _ _ hpending => by cases hpending
  looped := ⟨[], rfl, rfl⟩

/-- One more iteration. -/
theorem Run.InLoop.iterate {cid : String} {outcome : PrepareOutcome} {next : Run}
    (h : r.InLoop calls p) (hcid : r.nodes[r.index]? = some cid)
    (hloop : r.idle.prepareLoop [(cid, outcome)] = .ok next.advance)
    (hframe : next.curNodes = r.curNodes ∧ next.newv = r.newv ∧ next.nodes = r.nodes ∧
      next.index = r.index) (hinst : next.inst = r.inst) : next.advance.InLoop calls p := by
  obtain ⟨contacts, hmap, hbegin⟩ := h.looped
  obtain ⟨hcurNodes, hnewv, hnodes, hindex⟩ := hframe
  refine ⟨?_, ?_, contacts ++ [(cid, outcome)], ?_, ?_⟩
  · show next.nodes = next.curNodes
    rw [hnodes, hcurNodes, h.nodes]
  · intro call _ _ hpending
    cases hpending
  · show _ = next.curNodes.take (next.index + 1)
    rw [List.map_append, hmap, hcurNodes, hindex, List.take_add_one, ← h.nodes, hcid]
    rfl
  · show (Run.begin next.inst next.curNodes next.newv).prepareLoop _ = _
    rw [hinst, hcurNodes, hnewv, Run.prepareLoop_append, hbegin]
    exact hloop

theorem Run.InLoop.skip (h : r.InLoop calls p) (hindex : r.index < r.nodes.length) :
    r.advance.InLoop calls p := by
  have hloop : r.idle.prepareLoop [(r.nodes[r.index], .failed)] = .ok r.advance := rfl
  exact h.iterate (List.getElem?_eq_getElem hindex) hloop ⟨rfl, rfl, rfl, rfl⟩ rfl

theorem Run.InLoop.prepared {call : Call} {res : PrepareRes} (h : r.InLoop calls p)
    (hcall : call ∈ calls) (hclt : call.clt = p) (hpending : r.pending = some call.xid)
    (hold : res.oldinstance = false) : (r.onPrepare call.dst res).advance.InLoop calls p := by
  have hloop : r.idle.prepareLoop [(call.dst, .answered res)] =
      .ok (r.onPrepare call.dst res).advance := by
    rw [Run.prepareLoop, hold, if_neg Bool.false_ne_true, Run.idle_onPrepare]
    rfl
  exact h.iterate (h.pending call hcall hclt hpending) hloop (r.onPrepare_frame call.dst res)
    (r.onPrepare_inst_phase call.dst res).1

theorem Run.next_phase {next : Run} (h : r.next = some next) : next.phase ≠ .prepare := by
  obtain ⟨-, ⟨-, rfl⟩ | ⟨-, rfl⟩⟩ := Run.next_cases h <;> exact Phase.noConfusion

theorem Cluster.InLoops.setPro (h : s.InLoops) {pro : Proposer}
    (hpro : ∀ r, pro.run = some r → r.phase = .prepare → r.InLoop s.calls p) :
    (s.setPro p pro).InLoops := by
  intro q r hrun hphase
  rw [Cluster.pro_setPro] at hrun
  by_cases heq : q = p
  · rw [if_pos heq] at hrun
    subst heq
    exact hpro r hrun hphase
  · rw [if_neg heq] at hrun
    exact h q r hrun hphase

theorem Cluster.InLoops.setAcc (h : s.InLoops) (name : String) (acc : Acceptor) :
    (s.setAcc name acc).InLoops := by
  intro q r hrun hphase
  rw [Cluster.pro_setAcc] at hrun
  exact h q r hrun hphase

/-- The call of this iteration is the only one with its number. -/
theorem Cluster.InLoops.send (h : s.InLoops) (hwired : s.Wired) {dst : String}
    (hrun : (s.pro p).run = some r) (hdst : r.nodes[r.index]? = some dst) :
    (s.send p r dst).InLoops := by
  intro q r' hrun' hphase
  change ((s.setPro p _).pro q).run = some r' at hrun'
  rw [Cluster.pro_setPro] at hrun'
  by_cases heq : q = p
  · subst heq
    rw [if_pos rfl] at hrun'
    obtain rfl := Option.some.inj hrun'
    have hloop := h q r hrun hphase
    refine ⟨hloop.nodes, fun call hcall hclt hpending => ?_, hloop.looped⟩
    rcases List.mem_cons.mp hcall with rfl | hold
    · exact hdst
    · have hlt := hwired.xid_lt call hold
      have hxid : (s.pro q).xid = call.xid := Option.some.inj hpending
      rw [hclt] at hlt
      omega
  · rw [if_neg heq] at hrun'
    have hloop := h q r' hrun' hphase
    refine ⟨hloop.nodes, fun call hcall hclt hpending => ?_, hloop.looped⟩
    rcases List.mem_cons.mp hcall with rfl | hold
    · exact absurd hclt.symm heq
    · exact hloop.pending call hold hclt hpending

theorem Cluster.InLoops.step {action : Action} (h : s.InLoops) (hwired : s.Wired)
    (hstep : s.step action = some t) : t.InLoops := by
  -- the run of `p` goes on outside the prepare phase
  have later : ∀ {p : String} {r' : Run}, r'.phase ≠ .prepare → (s.setRun p (some r')).InLoops :=
    fun hphase => h.setPro fun r hr hprepare => by
      obtain rfl := Option.some.inj hr
      exact absurd hprepare hphase
  cases Cluster.move_of_step hstep with
  | run hrun hinst =>
      refine Cluster.InLoops.setPro h fun r hr _ => ?_
      obtain rfl := Option.some.inj hr
      exact .start ..
  | call hrun hpending hdst => exact h.send hwired hrun hdst
  | @skip p r hrun =>
      simp only [Cluster.step, hrun, Option.ite_none_right_eq_some] at hstep
      refine h.setPro fun r' hr' hphase => ?_
      obtain rfl := Option.some.inj hr'
      exact (h p r hrun hphase).skip hstep.1.2
  | handled hcall houtcome => exact h.setAcc _ _
  | aborted =>
      intro q r hrun hphase
      rw [Cluster.pro_setDown] at hrun
      exact h q r hrun hphase
  | oldinstance => exact (h.setAcc _ _).setPro fun r hr => by cases hr
  | @prepared p r call res hrun hreply hclt hpending hphase hold =>
      refine h.setPro fun r' hr' _ => ?_
      obtain rfl := Option.some.inj hr'
      exact (h p r hrun hphase).prepared (hwired.reply_call _ hreply) hclt hpending hold
  | @accepted p r call granted hrun hreply hclt hpending hphase =>
      refine later ?_
      show (r.onAccept call.dst granted).phase ≠ .prepare
      rw [(r.onAccept_frame call.dst granted).2.1, hphase]
      decide
  | @decided p r call hrun hphase =>
      refine later ?_
      show r.phase ≠ .prepare
      rw [hphase]
      decide
  | next => exact h.setPro fun r hr hphase => absurd hphase (Run.next_phase hr)

end InLoops

/-- **The loop of `prepare` in the cluster.**  Whatever the network does, a run that has asked
    the first `index` nodes has the variables that the loop gives on them. -/
theorem Cluster.prepare_phase_loops {first : String} {s : Cluster} {ok : Cluster → Action → Prop}
    (h : (paxos first).Reach ok s) : s.InLoops := by
  have hinv : s.Wired ∧ s.InLoops := by
    refine h.invariant (P := fun s => s.Wired ∧ s.InLoops) ?_ ?_
    · rintro start rfl
      exact ⟨Cluster.wired_initial first, fun p r hrun => by cases hrun⟩
    · rintro s t action ⟨hwired, hloops⟩ - hstep
      exact ⟨hwired.move (Cluster.move_of_step hstep), hloops.step hwired hstep⟩
  exact hinv.2

end DistributedLab.Paxos
