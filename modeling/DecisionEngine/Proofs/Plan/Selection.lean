import DecisionEngine.Proofs.Plan.Arbitration
import Mathlib.Data.List.Induction
import Mathlib.Data.List.Nodup
import Mathlib.Data.Prod.Lex
/-!
# The winner of an arbitration is the right one

Of the candidates that no other one dominates, the winner is one that none ranks above, and the
first such: it ranks above every one in front of it.  Everybody else loses, once each.

One scan from left to right finds the winner because every ranking is a strict weak order: those of
the policies by what they compare, as long as all weights are numbers, and that of a registered
comparator by what is asked of it.

* `StrictWeak` — nothing beats itself, and both beating and being tied carry over.
* `foldl_best_split`, `foldl_best_spec` — what a scan for the best leaves on its two sides.
* `Selector.strictWeak_ranking` — the ranking of a selector is a strict weak order.
* `Selector.losers_of_arbitrate` — everybody but the winner loses.
* `Selector.Selects` — what a selection should be.
* `Selector.arbitrate_selects` — arbitration gives such a selection.
-/

namespace DecisionEngine

open Relation (TransGen)

/-! ## Strict weak orders -/

section

variable {α : Type}

/-- Of the elements of a list none beats itself; what beats one that beats another one beats that
one too; and being tied, which is that neither beats the other, carries over as well. -/
structure StrictWeak (beats : α → α → Bool) (l : List α) : Prop where
  irrefl : ∀ a ∈ l, beats a a = false
  trans : ∀ a ∈ l, ∀ b ∈ l, ∀ c ∈ l, beats a b = true → beats b c = true → beats a c = true
  tied : ∀ a ∈ l, ∀ b ∈ l, ∀ c ∈ l, beats a b = false ∧ beats b a = false →
    beats b c = false ∧ beats c b = false → beats a c = false ∧ beats c a = false

namespace StrictWeak

variable {beats : α → α → Bool} {l l' : List α} {a b c : α}

theorem asymm (h : StrictWeak beats l) (ha : a ∈ l) (hb : b ∈ l) (hab : beats a b = true) :
    beats b a = false := by
  by_contra hba
  rw [Bool.not_eq_false] at hba
  have hself := h.trans a ha b hb a ha hab hba
  rw [h.irrefl a ha] at hself
  cases hself

/-- What is between two elements of which one beats the other is beaten by the one or beats the
other. -/
theorem between (h : StrictWeak beats l) (ha : a ∈ l) (hb : b ∈ l) (hc : c ∈ l)
    (hac : beats a c = true) : beats a b = true ∨ beats b c = true := by
  by_contra! hnot
  simp only [ne_eq, Bool.not_eq_true] at hnot
  obtain ⟨hab, hbc⟩ := hnot
  have hba : beats b a = false := by
    by_contra hba
    rw [Bool.not_eq_false] at hba
    rw [h.trans b hb a ha c hc hba hac] at hbc
    cases hbc
  have hcb : beats c b = false := by
    by_contra hcb
    rw [Bool.not_eq_false] at hcb
    rw [h.trans a ha c hc b hb hac hcb] at hab
    cases hab
  rw [(h.tied a ha b hb c hc ⟨hab, hba⟩ ⟨hbc, hcb⟩).1] at hac
  cases hac

theorem subset (h : StrictWeak beats l) (hsub : l' ⊆ l) : StrictWeak beats l' :=
  ⟨fun _ ha => h.irrefl _ (hsub ha),
    fun _ ha _ hb _ hc => h.trans _ (hsub ha) _ (hsub hb) _ (hsub hc),
    fun _ ha _ hb _ hc => h.tied _ (hsub ha) _ (hsub hb) _ (hsub hc)⟩

theorem of_map {β : Type} {f : β → α} {l : List β} (h : StrictWeak beats (l.map f)) :
    StrictWeak (fun x y => beats (f x) (f y)) l :=
  have hmem : ∀ {x}, x ∈ l → f x ∈ l.map f := fun hx => List.mem_map_of_mem hx
  ⟨fun _ ha => h.irrefl _ (hmem ha),
    fun _ ha _ hb _ hc => h.trans _ (hmem ha) _ (hmem hb) _ (hmem hc),
    fun _ ha _ hb _ hc => h.tied _ (hmem ha) _ (hmem hb) _ (hmem hc)⟩

/-- Beating by a greater key is a strict weak order. -/
theorem of_key {β : Type} [LinearOrder β] (key : α → β)
    (h : ∀ a ∈ l, ∀ b ∈ l, beats a b = true ↔ key b < key a) : StrictWeak beats l := by
  have hnot : ∀ a ∈ l, ∀ b ∈ l, beats a b = false ↔ key a ≤ key b := fun a ha b hb => by
    rw [← Bool.not_eq_true, h a ha b hb, not_lt]
  refine ⟨fun a ha => (hnot a ha a ha).2 le_rfl, fun a ha b hb c hc hab hbc => ?_,
    fun a ha b hb c hc => ?_⟩
  · rw [h a ha b hb] at hab
    rw [h b hb c hc] at hbc
    exact (h a ha c hc).2 (hbc.trans hab)
  · rintro ⟨hab, hba⟩ ⟨hbc, hcb⟩
    rw [hnot _ ‹_› _ ‹_›] at hab hba hbc hcb
    exact ⟨(hnot a ha c hc).2 (hab.trans hbc), (hnot c hc a ha).2 (hcb.trans hba)⟩

end StrictWeak

/-- Of the elements of a list none beats itself, and what beats one of them leaves behind whatever
that one leaves behind and whatever does not beat it. -/
structure LeavesBehind (beats : α → α → Bool) (behind : α → α → Prop) (l : List α) : Prop where
  irrefl : ∀ a ∈ l, beats a a = false
  carried : ∀ a ∈ l, ∀ b ∈ l, ∀ c ∈ l, beats a b = true → behind b c → behind a c
  passed : ∀ a ∈ l, ∀ b ∈ l, ∀ c ∈ l, beats a b = true → beats c b = false → behind a c

namespace LeavesBehind

variable {beats : α → α → Bool} {behind : α → α → Prop} {l l' : List α}

theorem subset (h : LeavesBehind beats behind l) (hsub : l' ⊆ l) : LeavesBehind beats behind l' :=
  ⟨fun _ ha => h.irrefl _ (hsub ha),
    fun _ ha _ hb _ hc => h.carried _ (hsub ha) _ (hsub hb) _ (hsub hc),
    fun _ ha _ hb _ hc => h.passed _ (hsub ha) _ (hsub hb) _ (hsub hc)⟩

theorem of_map {β : Type} {f : β → α} {l : List β} (h : LeavesBehind beats behind (l.map f)) :
    LeavesBehind (fun x y => beats (f x) (f y)) (fun x y => behind (f x) (f y)) l :=
  have hmem : ∀ {x}, x ∈ l → f x ∈ l.map f := fun hx => List.mem_map_of_mem hx
  ⟨fun _ ha => h.irrefl _ (hmem ha),
    fun _ ha _ hb _ hc => h.carried _ (hmem ha) _ (hmem hb) _ (hmem hc),
    fun _ ha _ hb _ hc => h.passed _ (hmem ha) _ (hmem hb) _ (hmem hc)⟩

end LeavesBehind

/-- In a strict weak order, elements leave behind what they beat. -/
theorem StrictWeak.leavesBehind {beats : α → α → Bool} {l : List α} (h : StrictWeak beats l) :
    LeavesBehind beats (fun a b => beats a b = true) l := by
  refine ⟨h.irrefl, h.trans, fun a ha b hb c hc hab hcb => ?_⟩
  refine (h.between ha hc hb hab).resolve_right ?_
  rw [hcb]
  exact Bool.false_ne_true

/-- A scan for the best leaves on its left what the best one leaves behind, and on its right what
does not beat it. -/
theorem foldl_best_split {beats : α → α → Bool} {behind : α → α → Prop} {first : α}
    {rest : List α} (h : LeavesBehind beats behind (first :: rest)) : ∃ left right,
      first :: rest =
        left ++ rest.foldl (fun best x => if beats x best then x else best) first :: right ∧
      (∀ x ∈ left, behind (rest.foldl (fun best x => if beats x best then x else best) first) x) ∧
      ∀ x ∈ right, beats x (rest.foldl (fun best x => if beats x best then x else best) first) =
        false := by
  -- The scan is extended at its end, so the best one so far is compared with one more element.
  induction rest using List.reverseRecOn with
  | nil => exact ⟨[], [], rfl, by simp, by simp⟩
  | append_singleton rest x ih =>
    obtain ⟨left, right, hsplit, hleft, hright⟩ := ih (h.subset fun y hy => by
      rw [← List.cons_append]
      exact List.mem_append_left _ hy)
    rw [List.foldl_append, List.foldl_cons, List.foldl_nil, ← List.cons_append, hsplit]
    rw [← List.cons_append, hsplit] at h
    generalize rest.foldl _ first = best at *
    have hmem : ∀ y ∈ left ++ best :: right, y ∈ (left ++ best :: right) ++ [x] := fun y hy =>
      List.mem_append_left _ hy
    have hbest := hmem best (by simp)
    have hx : x ∈ (left ++ best :: right) ++ [x] := by simp
    by_cases hbeats : beats x best = true
    · rw [if_pos hbeats]
      refine ⟨left ++ best :: right, [], rfl, fun y hy => ?_, by simp⟩
      have hy' := hmem y hy
      rcases List.mem_append.1 hy with hl | hr
      · exact h.carried x hx best hbest y hy' hbeats (hleft y hl)
      · rcases List.mem_cons.1 hr with rfl | hr
        · exact h.passed x hx y hbest y hbest hbeats (h.irrefl y hbest)
        · exact h.passed x hx best hbest y hy' hbeats (hright y hr)
    · rw [if_neg hbeats]
      refine ⟨left, right ++ [x], by simp, hleft, fun y hy => ?_⟩
      rcases List.mem_append.1 hy with hr | hx
      · exact hright y hr
      · rw [List.mem_singleton.1 hx]
        simpa using hbeats

/-- In a strict weak order, a scan for the best leaves on its left what the best one beats, and on
its right what does not beat it. -/
theorem foldl_best_spec {beats : α → α → Bool} {first : α} {rest : List α}
    (h : StrictWeak beats (first :: rest)) : ∃ left right,
      first :: rest =
        left ++ rest.foldl (fun best x => if beats x best then x else best) first :: right ∧
      (∀ x ∈ left, beats (rest.foldl (fun best x => if beats x best then x else best) first) x =
        true) ∧
      ∀ x ∈ right, beats x (rest.foldl (fun best x => if beats x best then x else best) first) =
        false :=
  foldl_best_split h.leavesBehind

end

/-! ## Rankings -/

/-- The best candidate of a ranking beats those in front of it and is not beaten by those behind. -/
theorem Ranking.best_spec {r : Ranking} {first : Candidate} {rest : List Candidate}
    (h : StrictWeak (fun c d : Candidate => r.beats c.branch d.branch) (first :: rest)) :
    ∃ left right, first :: rest = left ++ r.best first rest :: right ∧
      (∀ c ∈ left, r.beats (r.best first rest).branch c.branch = true) ∧
      ∀ c ∈ right, r.beats c.branch (r.best first rest).branch = false :=
  foldl_best_spec h

namespace Selector

/-- A selector can rank its branches: if it compares weights, these are numbers, and if it asks a
registered comparator, that is a strict weak order. -/
def Rankable (s : Selector) (comparators : Comparators) : Prop :=
  match s.policy with
  | .highestWeight | .bestMatch => ∀ b ∈ s.branches, b.weight.isNaN = false
  | .custom => ∀ wins, comparators.find? s.comparator = some wins → StrictWeak wins s.branches
  | .highestPriority | .firstSatisfied => True

theorem outweighs_iff {a b : Branch} (ha : a.weight.isNaN = false) (hb : b.weight.isNaN = false) :
    a.outweighs b = true ↔ b.weight.rank < a.weight.rank := by
  simp [Branch.outweighs, Binary64.less, ha, hb]

/-- The ranking of a selector is a strict weak order. -/
theorem strictWeak_ranking {s : Selector} {comparators : Comparators}
    (h : s.Rankable comparators) : StrictWeak (s.ranking comparators).1.beats s.branches := by
  unfold Rankable at h
  unfold ranking
  cases hpolicy : s.policy with
  | highestPriority =>
    refine .of_key (fun b => b.priority.toInt) fun a _ b _ => ?_
    simp [Ranking.beats, Int32.lt_iff_toInt_lt]
  | highestWeight =>
    rw [hpolicy] at h
    exact .of_key (fun b => b.weight.rank) fun a ha b hb => outweighs_iff (h a ha) (h b hb)
  | firstSatisfied => exact .of_key (fun _ => 0) fun a _ b _ => by simp [Ranking.beats]
  | bestMatch =>
    rw [hpolicy] at h
    refine .of_key (fun b => toLex (b.specificity, b.weight.rank)) fun a ha b hb => ?_
    rw [Prod.Lex.toLex_lt_toLex, Ranking.beats]
    dsimp only
    by_cases hsame : a.specificity = b.specificity
    · rw [if_pos hsame, outweighs_iff (h a ha) (h b hb)]
      simp [hsame]
    · rw [if_neg hsame, decide_eq_true_iff]
      exact ⟨.inl, fun hlex => hlex.resolve_right fun hsnd => hsame hsnd.1.symm⟩
  | custom =>
    rw [hpolicy] at h
    cases hfind : comparators.find? s.comparator with
    | none => exact .of_key (fun _ => 0) fun a _ b _ => by simp [Ranking.beats]
    | some wins => exact h wins hfind

/-! ## Selections -/

/-- The branch at one place of a selector dominates the one at another place. -/
def Dominates (s : Selector) (i j : Nat) : Prop :=
  i ≠ j ∧ ∃ a ∈ s.branches[i]?, ∃ b ∈ s.branches[j]?, (a.node, b.node) ∈ s.dominates

/-- The branch at one place of a selector ranks above the one at another place. -/
def Outranks (s : Selector) (comparators : Comparators) (i j : Nat) : Prop :=
  ∃ a ∈ s.branches[i]?, ∃ b ∈ s.branches[j]?, (s.ranking comparators).1.beats a b = true

/-- Dominance runs in a circle among some places, and each of the places is dominated. -/
def Deadlocked (s : Selector) (places : List Nat) : Prop :=
  (∃ i ∈ places, TransGen (fun j k => j ∈ places ∧ k ∈ places ∧ s.Dominates j k) i i) ∧
    ∀ i ∈ places, ∃ j ∈ places, s.Dominates j i

/-- A selection is right for some places: there is a winner if there are places, no place dominates
it, and of the places that none dominates no one ranks above it, while it ranks above all that are
in front of it; and everybody else loses, once each and in ascending order. -/
structure Selects (s : Selector) (comparators : Comparators) (places : List Nat) (v : Selection) :
    Prop where
  decided : places ≠ [] → ∃ w, v.winner = some w
  undominated : ∀ w ∈ v.winner, ∀ i ∈ places, ¬s.Dominates i w
  unbeaten : ∀ w ∈ v.winner, ∀ i ∈ places, (∀ j ∈ places, ¬s.Dominates j i) →
    ¬s.Outranks comparators i w
  first : ∀ w ∈ v.winner, ∀ left right, places = left ++ w :: right → ∀ i ∈ left,
    (∀ j ∈ places, ¬s.Dominates j i) → s.Outranks comparators w i
  everybody : (v.winner.toList ++ v.losers.map (·.branch)).Perm places
  ascending : (v.losers.map (·.branch)).Pairwise (· < ·)

variable {s : Selector} {comparators : Comparators} {among : List Candidate}

theorem dominatesIn_iff {c d : Candidate} (hc : s.branches[c.index]? = some c.branch)
    (hd : s.branches[d.index]? = some d.branch) :
    s.dominatesIn c d = true ↔ s.Dominates c.index d.index := by
  simp [dominatesIn, Dominates, hc, hd]

theorem outranks_iff {c d : Candidate} (hc : s.branches[c.index]? = some c.branch)
    (hd : s.branches[d.index]? = some d.branch) :
    s.Outranks comparators c.index d.index ↔
      (s.ranking comparators).1.beats c.branch d.branch = true := by
  simp [Outranks, hc, hd]

theorem mem_undominated_iff {c : Candidate} :
    c ∈ s.undominated among ↔ c ∈ among ∧ ∀ d ∈ among, s.dominatesIn d c = false := by
  unfold undominated dominator?
  rw [List.mem_filter, Option.isNone_iff_eq_none, List.find?_eq_none]
  simp

/-- The candidates of places that a selector has, if the plan has the nodes of its branches. -/
theorem exists_candidates {nodes : List PlanNode} {places : List Nat}
    (hplaces : ∀ i ∈ places, i < s.branches.length)
    (hnodes : ∀ b ∈ s.branches, b.node < nodes.length) :
    ∃ among, List.Forall₂ (fun i c => s.candidate? nodes i = some c ∧ c.index = i) places among ∧
      among.map (·.index) = places ∧ ∀ c ∈ among, s.branches[c.index]? = some c.branch := by
  have hfound : ∀ i ∈ places, ∃ c, (s.candidate? nodes i = some c ∧ c.index = i) ∧
      s.branches[c.index]? = some c.branch := fun i hi => by
    have hb := List.getElem?_eq_getElem (hplaces i hi)
    have hn := List.getElem?_eq_getElem (hnodes _ (List.getElem_mem (hplaces i hi)))
    exact ⟨_, ⟨candidate?_eq hb hn, rfl⟩, hb⟩
  obtain ⟨among, hamong⟩ := exists_forall₂ hfound
  refine ⟨among, hamong.imp fun _ _ h => h.1, ?_, fun c hc => ?_⟩
  · rw [← List.forall₂_eq_eq_eq, List.forall₂_map_left_iff]
    exact hamong.flip.imp fun _ _ h => h.1.2
  · obtain ⟨i, -, -, hb⟩ := forall₂_of_mem_left hamong.flip hc
    exact hb

/-- Where dominance does not run in circles, some of all places wins, whatever they are ranked by,
and none of them dominates it. -/
theorem exists_winner {nodes : List PlanNode} {places : List Nat} (hne : places ≠ [])
    (hplaces : ∀ i ∈ places, i < s.branches.length)
    (hnodes : ∀ b ∈ s.branches, b.node < nodes.length)
    (hacyclic : ∀ n, ¬TransGen (fun x y => (x, y) ∈ s.dominates) n n) :
    ∃ v w, s.arbitrate comparators nodes places = .ok v ∧ v.winner = some w ∧ w ∈ places ∧
      ∀ i ∈ places, ¬s.Dominates i w := by
  obtain ⟨among, hamong, rfl, hbranches⟩ := exists_candidates hplaces hnodes
  obtain ⟨w, hw⟩ := exists_picked comparators (by simpa using hne) hacyclic
  obtain ⟨v, hv, hwinner, -⟩ := exists_arbitrate hamong hw
  obtain ⟨hmem, hfree⟩ := pick_spec hw
  refine ⟨v, w.index, hv, hwinner, List.mem_map_of_mem hmem, fun i hi => ?_⟩
  obtain ⟨c, hc, rfl⟩ := List.mem_map.1 hi
  rw [← dominatesIn_iff (hbranches c hc) (hbranches w hmem), hfree c hc]
  exact Bool.false_ne_true

/-- Unless dominance runs in a circle that leaves none undominated, there is one. -/
theorem undominated_ne_nil (hbranches : ∀ c ∈ among, s.branches[c.index]? = some c.branch)
    (hne : among ≠ []) (h : ¬s.Deadlocked (among.map (·.index))) : s.undominated among ≠ [] := by
  intro hnone
  have hall : ∀ i ∈ among.map (·.index), ∃ j ∈ among.map (·.index), s.Dominates j i := by
    intro i hi
    obtain ⟨c, hc, rfl⟩ := List.mem_map.1 hi
    have hnot : c ∉ s.undominated among := hnone ▸ List.not_mem_nil
    rw [mem_undominated_iff] at hnot
    push Not at hnot
    obtain ⟨d, hd, hdominates⟩ := hnot hc
    rw [ne_eq, Bool.not_eq_false] at hdominates
    exact ⟨d.index, List.mem_map_of_mem hd,
      (dominatesIn_iff (hbranches d hd) (hbranches c hc)).1 hdominates⟩
  refine h ⟨?_, hall⟩
  by_contra! hacyclic
  obtain ⟨i, hi, hfree⟩ := exists_unbeaten (by simpa using hne) hacyclic
  obtain ⟨j, hj, hdominates⟩ := hall i hi
  exact hfree j hj ⟨hj, hi, hdominates⟩

/-- The dominated candidates lose. -/
theorem map_dominatedLosses : (s.dominatedLosses among).map (·.branch) =
    (among.filter fun c => !(s.dominator? among c).isNone).map (·.index) := by
  unfold dominatedLosses
  generalize s.dominator? among = dominator
  induction among with
  | nil => rfl
  | cons c rest ih => cases hdominator : dominator c <;> simp [hdominator, ih]

/-- Of the others those lose that do not win. -/
theorem map_rankedLosses {r : Ranking} {w : Candidate} {remaining : List Candidate} :
    (rankedLosses r w remaining).map (·.branch) =
      (remaining.map (·.index)).filter (· != w.index) := by
  unfold rankedLosses
  rw [List.map_map, List.filter_map]
  rfl

/-- A winner among the undominated candidates and the losers are all candidates. -/
theorem perm_losses {r : Ranking} {w : Candidate} (hnodup : (among.map (·.index)).Nodup)
    (hw : w ∈ s.undominated among) :
    (w.index :: (s.dominatedLosses among ++ rankedLosses r w (s.undominated among)).map
      (·.branch)).Perm (among.map (·.index)) := by
  have hfree : ((s.undominated among).map (·.index)).Nodup :=
    hnodup.sublist (List.filter_sublist.map _)
  have hothers : (w.index :: ((s.undominated among).map (·.index)).filter (· != w.index)).Perm
      ((s.undominated among).map (·.index)) := by
    rw [← hfree.erase_eq_filter]
    exact (List.perm_cons_erase (List.mem_map_of_mem hw)).symm
  rw [List.map_append, map_dominatedLosses, map_rankedLosses]
  refine List.perm_middle.symm.trans ?_
  refine (List.Perm.append_left _ hothers).trans ?_
  rw [← List.map_append]
  exact (List.perm_append_comm.trans
    (List.filter_append_perm (fun c => (s.dominator? among c).isNone) among)).map _

/-- What a filter leaves keeps its order: of two elements that it leaves, the same one comes first
before and after. -/
theorem idxOf_lt_idxOf_iff_of_filter {α : Type} [DecidableEq α] {p : α → Bool}
    {l left right : List α} {x y : α} (hsplit : l.filter p = left ++ y :: right) (hy : y ∉ left)
    (hx : p x = true) : l.idxOf x < l.idxOf y ↔ x ∈ left := by
  obtain ⟨front, rest, rfl, rfl, hrest⟩ := List.filter_eq_append_iff.1 hsplit
  obtain ⟨dropped, back, rfl, hdropped, hpy, -⟩ := List.filter_eq_cons_iff.1 hrest
  have hfront : ∀ z, p z = true → (z ∈ front ++ dropped ↔ z ∈ front.filter p) := fun z hz => by
    rw [List.mem_append, List.mem_filter]
    exact ⟨fun hmem => ⟨hmem.resolve_right fun hd => hdropped z hd hz, hz⟩, fun hmem => .inl hmem.1⟩
  rw [← List.append_assoc, ← hfront x hx]
  rw [← hfront y hpy] at hy
  rw [List.idxOf_append_of_notMem hy, List.idxOf_cons_self, Nat.add_zero]
  by_cases hmem : x ∈ front ++ dropped
  · rw [List.idxOf_append_of_mem hmem]
    exact iff_of_true (List.idxOf_lt_length_of_mem hmem) hmem
  · rw [List.idxOf_append_of_notMem hmem]
    exact iff_of_false (by omega) hmem

/-- The candidates in front of the winner are in front of it among the undominated ones. -/
theorem mem_left_of_undominated {w c : Candidate} {left right : List Candidate}
    {front back : List Nat} (hnodup : (among.map (·.index)).Nodup)
    (hsplit : s.undominated among = left ++ w :: right)
    (hplaces : among.map (·.index) = front ++ w.index :: back)
    (hc : c ∈ s.undominated among) (hfront : c.index ∈ front) : c ∈ left := by
  have hinj : ∀ x ∈ among, ∀ y ∈ among, x.index = y.index → x = y := fun x hx y hy =>
    List.inj_on_of_nodup_map hnodup hx hy
  have hw : w ∈ s.undominated among := by simp [hsplit]
  obtain ⟨before, rest, rfl, rfl, hrest⟩ := List.map_eq_append_iff.1 hplaces
  obtain ⟨w', after, rfl, hindex, -⟩ := List.map_eq_cons_iff.1 hrest
  obtain rfl : w' = w := hinj w' (by simp) w (List.mem_filter.1 hw).1 hindex
  obtain ⟨d, hd, hdc⟩ := List.mem_map.1 hfront
  obtain rfl : d = c := hinj d (by simp [hd]) c (List.mem_filter.1 hc).1 hdc
  have hwbefore : w' ∉ before := fun hmem =>
    (List.nodup_append.1 (List.Nodup.of_map _ hnodup)).2.2 w' hmem w' (List.mem_cons_self ..) rfl
  have hwleft : w' ∉ left := fun hmem => by
    have hundominated : (s.undominated (before ++ w' :: after)).Nodup :=
      (List.Nodup.of_map _ hnodup).filter _
    rw [hsplit] at hundominated
    exact (List.nodup_append.1 hundominated).2.2 w' hmem w' (List.mem_cons_self ..) rfl
  refine (idxOf_lt_idxOf_iff_of_filter hsplit hwleft (List.mem_filter.1 hc).2).1 ?_
  rw [List.idxOf_append_of_mem hd, List.idxOf_append_of_notMem hwbefore, List.idxOf_cons_self]
  exact List.idxOf_lt_length_of_mem hd

/-! ## What comes of an arbitration -/

theorem best_mem (r : Ranking) (first : Candidate) (rest : List Candidate) :
    r.best first rest ∈ first :: rest := by
  refine List.foldlRecOn rest _ (motive := fun c => c ∈ first :: rest) (List.mem_cons_self ..)
    fun c hc d hd => ?_
  split
  · exact List.mem_cons_of_mem _ hd
  · exact hc

/-- The best of the undominated candidates has won, and those that are dominated or ranked behind it
have lost. -/
theorem settle_eq_ok {v : Selection} (h : s.settle comparators among = .ok v) :
    ∃ first rest, s.undominated among = first :: rest ∧
      v.winner = some ((s.ranking comparators).1.best first rest).index ∧
      v.losers = (s.dominatedLosses among ++ rankedLosses (s.ranking comparators).1
        ((s.ranking comparators).1.best first rest) (s.undominated among)).mergeSort
          fun a b => decide (a.branch ≤ b.branch) := by
  unfold settle at h
  generalize s.ranking comparators = ranked at h ⊢
  split at h
  · cases h
  · rename_i first rest hfree
    cases h
    exact ⟨first, rest, hfree, rfl, by rw [hfree]⟩

/-- Everybody but the winner has lost, once each and in ascending order. -/
theorem losers_of_settle {v : Selection} (hnodup : (among.map (·.index)).Nodup)
    (h : s.settle comparators among = .ok v) :
    ∃ w, v.winner = some w ∧ (w :: v.losers.map (·.branch)).Perm (among.map (·.index)) ∧
      (v.losers.map (·.branch)).Pairwise (· < ·) := by
  obtain ⟨first, rest, hfree, hwinner, hlosers⟩ := settle_eq_ok h
  have hw : (s.ranking comparators).1.best first rest ∈ s.undominated among := by
    rw [hfree]
    exact best_mem ..
  have hperm := perm_losses (r := (s.ranking comparators).1) hnodup hw
  generalize s.dominatedLosses among ++ rankedLosses _ _ _ = losses at hperm hlosers
  have hsorted := List.mergeSort_perm losses fun a b => decide (a.branch ≤ b.branch)
  rw [← hlosers] at hsorted
  have hall := ((hsorted.map (·.branch)).cons _).trans hperm
  refine ⟨_, hwinner, hall, ?_⟩
  have htrans : ∀ a b c : Loss, decide (a.branch ≤ b.branch) = true →
      decide (b.branch ≤ c.branch) = true → decide (a.branch ≤ c.branch) = true :=
    fun a b c hab hbc => by simp only [decide_eq_true_eq] at *; omega
  have htotal : ∀ a b : Loss,
      (decide (a.branch ≤ b.branch) || decide (b.branch ≤ a.branch)) = true :=
    fun a b => by simp only [Bool.or_eq_true, decide_eq_true_eq]; omega
  have hle := List.pairwise_mergeSort htrans htotal losses
  have hdistinct := (List.nodup_cons.1 (hall.nodup_iff.2 hnodup)).2
  rw [List.Nodup, List.pairwise_map] at hdistinct
  rw [← hlosers] at hle
  rw [List.pairwise_map]
  refine (hle.and hdistinct).imp fun hab => ?_
  exact Nat.lt_of_le_of_ne (of_decide_eq_true hab.1) hab.2

theorem candidate?_eq_some_iff {nodes : List PlanNode} {i : Nat} {c : Candidate} :
    s.candidate? nodes i = some c ↔ c.index = i ∧ s.branches[i]? = some c.branch ∧
      ∃ n, nodes[c.branch.node]? = some n ∧ c.id = n.id := by
  constructor
  · intro h
    obtain ⟨b, hb, h⟩ := Option.bind_eq_some_iff.1 h
    obtain ⟨n, hn, h⟩ := Option.bind_eq_some_iff.1 h
    cases h
    exact ⟨rfl, hb, n, hn, rfl⟩
  · rintro ⟨rfl, hb, n, hn, hid⟩
    rw [candidate?_eq hb hn, ← hid]

/-- Candidates are at the places that they are candidates of. -/
theorem map_index_candidates {nodes : List PlanNode} {places : List Nat}
    (h : List.Forall₂ (fun i c => s.candidate? nodes i = some c) places among) :
    among.map (·.index) = places := by
  rw [← List.forall₂_eq_eq_eq, List.forall₂_map_left_iff]
  exact h.flip.imp fun _ _ h => (candidate?_eq_some_iff.1 h).1

/-- Without places nobody wins or loses; else they are the places of candidates, which are
settled. -/
theorem arbitrate_eq_ok {nodes : List PlanNode} {places : List Nat} {v : Selection}
    (h : s.arbitrate comparators nodes places = .ok v) :
    (places = [] ∧ v.winner = none ∧ v.losers = []) ∨
      ∃ among, List.Forall₂ (fun i c => s.candidate? nodes i = some c) places among ∧
        s.settle comparators among = .ok v := by
  unfold arbitrate at h
  split at h
  · rename_i hempty
    cases h
    exact .inl ⟨List.isEmpty_iff.1 hempty, rfl, rfl⟩
  · split at h
    · cases h
    · rename_i among hamong
      exact .inr ⟨among, forall₂_of_mapM_eq_some hamong, h⟩

/-- Of places in ascending order all lose but that of the winner, and there is one if there are
any. -/
theorem losers_of_arbitrate {nodes : List PlanNode} {places : List Nat} {v : Selection}
    (hascending : places.Pairwise (· < ·)) (h : s.arbitrate comparators nodes places = .ok v) :
    v.losers.map (·.branch) = places.filter (fun i => v.winner != some i) ∧
      (v.winner = none ↔ places = []) ∧ ∀ w ∈ v.winner, w ∈ places := by
  rcases arbitrate_eq_ok h with ⟨rfl, hwinner, hlosers⟩ | ⟨among, hamong, hsettle⟩
  · simp [hwinner, hlosers]
  · have hindex := map_index_candidates hamong
    have hnodup : places.Nodup := hascending.imp Nat.ne_of_lt
    obtain ⟨w, hwinner, hperm, hsorted⟩ := losers_of_settle (hindex ▸ hnodup) hsettle
    rw [hindex] at hperm
    have hw : w ∈ places := hperm.mem_iff.1 (List.mem_cons_self ..)
    have hothers : places.filter (fun i => v.winner != some i) = places.erase w := by
      rw [hnodup.erase_eq_filter]
      refine List.filter_congr fun i _ => ?_
      rw [hwinner, Bool.eq_iff_iff, bne_iff_ne, bne_iff_ne, ne_eq, Option.some_inj, ne_comm]
    refine ⟨?_, ?_, fun i hi => ?_⟩
    · rw [hothers]
      have herased : (places.erase w).Sublist places := List.erase_sublist
      exact List.Perm.eq_of_pairwise (fun a b _ _ hab hba => absurd hab (Nat.lt_asymm hba))
        hsorted (hascending.sublist herased) (List.cons_perm_iff_perm_erase.1 hperm).2
    · simp only [hwinner, reduceCtorEq, false_iff]
      exact List.ne_nil_of_mem hw
    · rw [hwinner] at hi
      cases hi
      exact hw

/-! ## Right selections -/

/-- Candidates at different places are settled rightly, unless dominance leaves none over. -/
theorem settle_selects (hbranches : ∀ c ∈ among, s.branches[c.index]? = some c.branch)
    (hnodup : (among.map (·.index)).Nodup) (hne : among ≠ [])
    (hdominance : ¬s.Deadlocked (among.map (·.index))) (hrankable : s.Rankable comparators) :
    ∃ v, s.settle comparators among = .ok v ∧
      s.Selects comparators (among.map (·.index)) v := by
  have hsome := undominated_ne_nil hbranches hne hdominance
  obtain ⟨v, hv⟩ : ∃ v, s.settle comparators among = .ok v := by
    obtain ⟨first, rest, hfree⟩ := List.exists_cons_of_ne_nil hsome
    unfold settle
    rw [hfree]
    exact ⟨_, rfl⟩
  obtain ⟨first, rest, hfree, hwinner, -⟩ := settle_eq_ok hv
  obtain ⟨_, hwinner', hall, hascending⟩ := losers_of_settle hnodup hv
  obtain rfl := Option.some.inj (hwinner.symm.trans hwinner')
  have hmem : ∀ c ∈ s.undominated among, c ∈ among := fun c hc => (mem_undominated_iff.1 hc).1
  have horder : StrictWeak (fun c d : Candidate =>
      (s.ranking comparators).1.beats c.branch d.branch) (s.undominated among) := by
    refine .of_map ((strictWeak_ranking hrankable).subset fun b hb => ?_)
    obtain ⟨c, hc, rfl⟩ := List.mem_map.1 hb
    exact List.mem_of_getElem? (hbranches c (hmem c hc))
  have hscan := Ranking.best_spec (hfree ▸ horder)
  rw [← hfree] at hscan
  generalize (s.ranking comparators).1.best first rest = w at hscan hwinner hall
  obtain ⟨left, right, hsplit, hleft, hright⟩ := hscan
  have hw : w ∈ s.undominated among := by simp [hsplit]
  have hfreeOf : ∀ c ∈ among, (∀ j ∈ among.map (·.index), ¬s.Dominates j c.index) →
      c ∈ s.undominated among := fun c hc hnone => by
    refine mem_undominated_iff.2 ⟨hc, fun d hd => ?_⟩
    rw [← Bool.not_eq_true, dominatesIn_iff (hbranches d hd) (hbranches c hc)]
    exact hnone d.index (List.mem_map_of_mem hd)
  refine ⟨v, hv, ⟨fun _ => ⟨_, hwinner⟩, ?_, ?_, ?_, hwinner ▸ hall, hascending⟩⟩
  all_goals
    rw [hwinner]
    rintro _ ⟨⟩
  · intro i hi hdominates
    obtain ⟨c, hc, rfl⟩ := List.mem_map.1 hi
    obtain ⟨hwa, hfree⟩ := mem_undominated_iff.1 hw
    rw [← dominatesIn_iff (hbranches c hc) (hbranches w hwa), hfree c hc] at hdominates
    cases hdominates
  · intro i hi hnone
    obtain ⟨c, hc, rfl⟩ := List.mem_map.1 hi
    rw [outranks_iff (hbranches c hc) (hbranches w (hmem w hw)), Bool.not_eq_true]
    have hcfree := hfreeOf c hc hnone
    have hplace := hcfree
    rw [hsplit] at hplace
    rcases List.mem_append.1 hplace with hl | hr
    · exact horder.asymm hw hcfree (hleft c hl)
    · rcases List.mem_cons.1 hr with rfl | hr
      · exact horder.irrefl c hw
      · exact hright c hr
  · intro front back hplaces i hi hnone
    obtain ⟨c, hc, rfl⟩ := List.mem_map.1 (hplaces ▸ List.mem_append_left _ hi)
    rw [outranks_iff (hbranches w (hmem w hw)) (hbranches c hc)]
    exact hleft c (mem_left_of_undominated hnodup hsplit hplaces (hfreeOf c hc hnone) hi)

/-- **Arbitration picks the right winner.**  Of places with distinct numbers, arbitration selects a
winner if there are any: one that no place dominates and, of those that none dominates, none ranks
above, while it ranks above all that are in front of it.  Everybody else loses, once each and in
ascending order.  Weights have to be numbers, or a registered comparator a strict weak order, and
dominance must not run in a circle that leaves everybody dominated. -/
theorem arbitrate_selects {nodes : List PlanNode} {places : List Nat} (hdistinct : places.Nodup)
    (hplaces : ∀ i ∈ places, i < s.branches.length)
    (hnodes : ∀ b ∈ s.branches, b.node < nodes.length) (hdominance : ¬s.Deadlocked places)
    (hrankable : s.Rankable comparators) :
    ∃ v, s.arbitrate comparators nodes places = .ok v ∧ s.Selects comparators places v := by
  unfold arbitrate
  by_cases hempty : places = []
  · subst hempty
    exact ⟨_, rfl, fun h => absurd rfl h, by simp, by simp, by simp, .refl _, .nil⟩
  · obtain ⟨among, hamong, rfl, hbranches⟩ := exists_candidates hplaces hnodes
    rw [if_neg (by simpa using hempty), mapM_eq_some_of_forall₂ (hamong.imp fun _ _ h => h.1)]
    exact settle_selects hbranches hdistinct (by simpa using hempty) hdominance hrankable

/-- Four branches that a comparator by weight tells apart; the last one dominates the lightest. -/
def sample : Selector where
  group := utf8 "offers"
  policy := .custom
  comparator := utf8 "lightest"
  branches := [branch 0 1, branch 1 2, branch 2 2, branch 3 3]
  dominates := [(3, 0), (3, 3)]
where
  branch (node : Nat) (weight : UInt64) : Branch :=
    ⟨node, ⟨0, .empty, [], []⟩, 0, ⟨weight⟩, none, 0⟩

theorem arbitrate_selects_sample :
    ∃ v, sample.arbitrate ⟨[(utf8 "lightest", .lowestWeight)]⟩
        (List.replicate 4 ⟨[], .action, []⟩) [0, 1, 2, 3] = .ok v ∧
      sample.Selects ⟨[(utf8 "lightest", .lowestWeight)]⟩ [0, 1, 2, 3] v ∧ v.winner = some 1 := by
  have hdominance : ¬sample.Deadlocked [0, 1, 2, 3] := fun h => by
    obtain ⟨j, hj, hdominates⟩ := h.2 3 (by decide)
    revert hdominates
    unfold Dominates
    revert j
    decide
  have hrankable : sample.Rankable ⟨[(utf8 "lightest", .lowestWeight)]⟩ := fun wins hwins => by
    obtain rfl : Comparator.lowestWeight = wins := Option.some.inj hwins
    exact ⟨by decide, by decide, by decide⟩
  obtain ⟨v, hv, hselects⟩ : ∃ v, sample.arbitrate ⟨[(utf8 "lightest", .lowestWeight)]⟩
        (List.replicate 4 ⟨[], .action, []⟩) [0, 1, 2, 3] = .ok v ∧
      sample.Selects ⟨[(utf8 "lightest", .lowestWeight)]⟩ [0, 1, 2, 3] v :=
    arbitrate_selects (by decide) (by decide) (by decide) hdominance hrankable
  have hwinner : (sample.arbitrate ⟨[(utf8 "lightest", .lowestWeight)]⟩
      (List.replicate 4 ⟨[], .action, []⟩) [0, 1, 2, 3]).toOption.map (·.winner) =
        some (some 1) := rfl
  rw [hv] at hwinner
  exact ⟨v, hv, hselects, Option.some.inj hwinner⟩

end Selector
end DecisionEngine
