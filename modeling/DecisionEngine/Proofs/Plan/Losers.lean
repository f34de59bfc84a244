import DecisionEngine.Proofs.Plan.Selection
/-!
# Why candidates lose

The reason that a loser is given is worked out after the winner is known, from the two of them
alone.  A reason that says what the loser has less of is always true, and so is dominance.  That
the winner is only in front of the loser is true except of one kind of loser: it stands in front of
the winner, only weights can tell the two apart, and its own weight is not a number, so that the
scan passed it over although nothing beats it.

* `LossReason.TrueOf` — a reason tells the truth about a loser.
* `Ranking.weightless`, `Selector.Overlooked` — the losers about whom it does not.
* `Selector.leavesBehind_ranking` — what a scan for the best leaves behind, with weights of any
  kind.
* `Selector.explanation_true_iff` — every other loser is told the truth.
-/

namespace DecisionEngine

/-! ## What explanations say -/

/-- Of the weights of two branches just the first one is not a number. -/
def Branch.weightless (a b : Branch) : Bool := a.weight.isNaN && !b.weight.isNaN

/-- Only their weights tell two branches apart, and just the first one of these is not a number. -/
def Ranking.weightless : Ranking → Branch → Branch → Bool
  | weight, a, b => a.weightless b
  | specificity, a, b => a.specificity == b.specificity && a.weightless b
  | _, _, _ => false

/-- A reason is true of a loser among some places.  What is said to dominate it is the node of a
place and does dominate it; the one it is said to tie with, or to be declared behind, is the
winner, which stands in front of it while neither ranks above the other; and any other reason is
about the winner, which ranks above it. -/
def LossReason.TrueOf (s : Selector) (comparators : Comparators) (nodes : List PlanNode)
    (places : List Nat) (winner loser : Nat) : LossReason → Prop
  | dominated id => ∃ i ∈ places, (s.candidate? nodes i).map (·.id) = some id ∧ s.Dominates i loser
  | declaredLater id | tied id =>
    (s.candidate? nodes winner).map (·.id) = some id ∧
      places.idxOf winner < places.idxOf loser ∧
      ¬s.Outranks comparators winner loser ∧ ¬s.Outranks comparators loser winner
  | lowerPriority _ _ id | lowerWeight _ _ id | fewerMatches _ _ id
  | lowerWeightOfEqualMatches _ _ id | rankedBelow id =>
    (s.candidate? nodes winner).map (·.id) = some id ∧ s.Outranks comparators winner loser

/-- A loser was overlooked: no place dominates it, it stands in front of the winner, and only
weights tell it from the winner, its own not being a number. -/
def Selector.Overlooked (s : Selector) (comparators : Comparators) (places : List Nat)
    (winner loser : Nat) : Prop :=
  (∀ i ∈ places, ¬s.Dominates i loser) ∧ places.idxOf loser < places.idxOf winner ∧
    ∃ a ∈ s.branches[loser]?, ∃ b ∈ s.branches[winner]?,
      (s.ranking comparators).1.weightless a b = true

/-! ## What a scan leaves behind -/

namespace Branch

variable {a b c : Branch}

theorem outweighs_eq_true_iff : a.outweighs b = true ↔
    b.weight.isNaN = false ∧ a.weight.isNaN = false ∧ b.weight.rank < a.weight.rank := by
  simp [outweighs, Binary64.less, and_assoc]

theorem weightless_eq_true_iff :
    a.weightless b = true ↔ a.weight.isNaN = true ∧ b.weight.isNaN = false := by
  simp [weightless]

/-- What outweighs a branch outweighs all that the branch leaves behind or that does not outweigh
it, save for weights that are no numbers. -/
theorem outweighs_or_weightless (hab : a.outweighs b = true)
    (h : (b.outweighs c = true ∨ c.weightless b = true) ∨ c.outweighs b = false) :
    a.outweighs c = true ∨ c.weightless a = true := by
  rw [← Bool.not_eq_true] at h
  simp only [outweighs_eq_true_iff, weightless_eq_true_iff] at *
  obtain ⟨hb, ha, hlt⟩ := hab
  cases hc : c.weight.isNaN with
  | true => exact .inr ⟨rfl, ha⟩
  | false =>
    refine .inl ⟨rfl, ha, ?_⟩
    simp only [hb, hc, true_and, Bool.false_eq_true, false_and, or_false] at h
    omega

end Branch

/-- A scan leaves a branch behind another one: the other one ranks above it, or its weight, which
alone could tell the two apart, is not a number. -/
def Ranking.Leaves (r : Ranking) (a b : Branch) : Prop :=
  r.beats a b = true ∨ r.weightless b a = true

namespace Ranking

variable {a b c : Branch}

/-- What ranks above a branch by specificity has as many conditions or more. -/
theorem beats_specificity_iff : specificity.beats a b = true ↔
    b.specificity < a.specificity ∨ (a.specificity = b.specificity ∧ a.outweighs b = true) := by
  rw [beats]
  by_cases hsame : a.specificity = b.specificity
  · simp [hsame]
  · simp [hsame]

theorem not_weightless_of_beats {r : Ranking} (h : r.beats a b = true) :
    r.weightless b a = false := by
  have hnumber : a.outweighs b = true → b.weightless a = false := fun hab => by
    rw [← Bool.not_eq_true, Branch.weightless_eq_true_iff, (Branch.outweighs_eq_true_iff.1 hab).1]
    exact fun hnan => Bool.false_ne_true hnan.1
  cases r with
  | weight => exact hnumber h
  | specificity =>
    rcases beats_specificity_iff.1 h with hlt | ⟨-, hab⟩
    · rw [weightless, beq_false_of_ne (Nat.ne_of_lt hlt), Bool.false_and]
    · rw [weightless, hnumber hab, Bool.and_false]
  | priority => rfl
  | declaration => rfl
  | comparator wins => rfl

theorem not_weightless_self {r : Ranking} : ¬r.weightless a a = true := by
  have hself : a.weightless a = false := by simp [Branch.weightless]
  cases r <;> simp [weightless, hself]

theorem leavesBehind_weight (l : List Branch) : LeavesBehind weight.beats weight.Leaves l := by
  refine ⟨fun a _ => ?_, fun a _ b _ c _ hab hbc => ?_, fun a _ b _ c _ hab hcb => ?_⟩
  · rw [← Bool.not_eq_true]
    exact fun h => Int.lt_irrefl _ (Branch.outweighs_eq_true_iff.1 h).2.2
  · exact Branch.outweighs_or_weightless hab (.inl hbc)
  · exact Branch.outweighs_or_weightless hab (.inr hcb)

theorem leaves_specificity_iff : specificity.Leaves a b ↔ b.specificity < a.specificity ∨
    (a.specificity = b.specificity ∧ (a.outweighs b = true ∨ b.weightless a = true)) := by
  unfold Leaves weightless
  rw [beats_specificity_iff, Bool.and_eq_true, beq_iff_eq, and_or_left, or_assoc,
    eq_comm (a := b.specificity)]

theorem leavesBehind_specificity (l : List Branch) :
    LeavesBehind specificity.beats specificity.Leaves l := by
  have hstep : ∀ a b c : Branch, specificity.beats a b = true →
      (specificity.Leaves b c ∨ specificity.beats c b = false) → specificity.Leaves a c := by
    intro a b c hab h
    rw [← Bool.not_eq_true, beats_specificity_iff, leaves_specificity_iff] at h
    rw [leaves_specificity_iff]
    rcases beats_specificity_iff.1 hab with hlt | ⟨hsame, hweight⟩
    · exact .inl (by omega)
    · by_cases hc : c.specificity = b.specificity
      · refine .inr ⟨hsame.trans hc.symm, Branch.outweighs_or_weightless hweight ?_⟩
        rw [← Bool.not_eq_true]
        simpa [hc] using h
      · exact .inl (by omega)
  refine ⟨fun a _ => ?_, fun a _ b _ c _ hab hbc => hstep a b c hab (.inl hbc),
    fun a _ b _ c _ hab hcb => hstep a b c hab (.inr hcb)⟩
  rw [← Bool.not_eq_true, beats_specificity_iff, Branch.outweighs_eq_true_iff]
  omega

/-- What is ranked by something else than weights leaves behind what it beats. -/
theorem leavesBehind_of_strictWeak {r : Ranking} {l : List Branch}
    (hr : ∀ a b, r.weightless a b = false) (h : StrictWeak r.beats l) :
    LeavesBehind r.beats r.Leaves l := by
  have hleaves : r.Leaves = fun a b => r.beats a b = true := by
    funext a b
    unfold Leaves
    rw [hr b a]
    simp
  rw [hleaves]
  exact h.leavesBehind

end Ranking

namespace Selector

variable {s : Selector} {comparators : Comparators}

/-- Whatever the weights are, a scan leaves nothing behind but what it should, if a registered
comparator is a strict weak order. -/
theorem leavesBehind_ranking (h : ∀ wins, s.policy = .custom →
      comparators.find? s.comparator = some wins → StrictWeak wins s.branches) :
    LeavesBehind (s.ranking comparators).1.beats (s.ranking comparators).1.Leaves s.branches := by
  unfold ranking
  cases hpolicy : s.policy with
  | highestPriority =>
    refine Ranking.leavesBehind_of_strictWeak (fun _ _ => rfl) ?_
    refine .of_key (fun b => b.priority.toInt) fun a _ b _ => ?_
    simp [Ranking.beats, Int32.lt_iff_toInt_lt]
  | highestWeight => exact Ranking.leavesBehind_weight s.branches
  | firstSatisfied =>
    refine Ranking.leavesBehind_of_strictWeak (fun _ _ => rfl) ?_
    exact .of_key (fun _ => 0) fun a _ b _ => by simp [Ranking.beats]
  | bestMatch => exact Ranking.leavesBehind_specificity s.branches
  | custom =>
    refine Ranking.leavesBehind_of_strictWeak (fun a b => ?_) ?_
    · cases comparators.find? s.comparator <;> rfl
    · cases hfind : comparators.find? s.comparator with
      | none => exact .of_key (fun _ => 0) fun a _ b _ => by simp [Ranking.beats]
      | some wins => exact h wins hpolicy hfind

/-! ## Explanations -/

variable {nodes : List PlanNode} {places : List Nat} {among : List Candidate} {v : Selection}

theorem idxOf_map_of_injOn {α β : Type} [DecidableEq α] [DecidableEq β] {f : α → β} {l : List α}
    (h : ∀ x ∈ l, ∀ y ∈ l, f x = f y → x = y) {x : α} (hx : x ∈ l) :
    (l.map f).idxOf (f x) = l.idxOf x := by
  induction l with
  | nil => exact absurd hx List.not_mem_nil
  | cons y l ih =>
    rw [List.map_cons]
    by_cases hxy : y = x
    · rw [hxy, List.idxOf_cons_self, List.idxOf_cons_self]
    · have hf : f y ≠ f x := fun hf => hxy (h y (List.mem_cons_self ..) x hx hf)
      rw [List.idxOf_cons_ne _ hf, List.idxOf_cons_ne _ hxy,
        ih (fun x hx y hy => h x (List.mem_cons_of_mem _ hx) y (List.mem_cons_of_mem _ hy))
          ((List.mem_cons.1 hx).resolve_left fun hx => hxy hx.symm)]

/-- Being dominated is always true. -/
theorem trueOf_dominated {l : Loss} (winner : Nat)
    (hamong : List.Forall₂ (fun i c => s.candidate? nodes i = some c) places among)
    (hl : l ∈ s.dominatedLosses among) :
    l.reason.TrueOf s comparators nodes places winner l.branch ∧
      ¬s.Overlooked comparators places winner l.branch := by
  obtain ⟨c, hc, hl⟩ := List.mem_filterMap.1 hl
  obtain ⟨d, hd, rfl⟩ := Option.map_eq_some_iff.1 hl
  obtain ⟨i, hi, hdi⟩ := forall₂_of_mem_left hamong.flip (List.mem_of_find?_eq_some hd)
  obtain ⟨j, -, hcj⟩ := forall₂_of_mem_left hamong.flip hc
  obtain ⟨rfl, hdb, -⟩ := candidate?_eq_some_iff.1 hdi
  obtain ⟨rfl, hcb, -⟩ := candidate?_eq_some_iff.1 hcj
  have hdominates : s.Dominates d.index c.index :=
    (dominatesIn_iff hdb hcb).1 (List.find?_some (p := fun d => s.dominatesIn d c) hd)
  refine ⟨⟨d.index, hi, ?_, hdominates⟩, fun hover => hover.1 d.index hi hdominates⟩
  rw [hdi]
  rfl

/-- The reason that is given to a candidate that nobody dominates is true if the winner ranks above
it, or stands in front of it without being ranked below. -/
theorem trueOf_reason_iff {c w : Candidate} (hc : s.candidate? nodes c.index = some c)
    (hw : s.candidate? nodes w.index = some w) :
    ((s.ranking comparators).1.reason c w).TrueOf s comparators nodes places w.index c.index ↔
      (s.ranking comparators).1.beats w.branch c.branch = true ∨
        (places.idxOf w.index < places.idxOf c.index ∧
          (s.ranking comparators).1.beats c.branch w.branch = false) := by
  have hname : (s.candidate? nodes w.index).map (·.id) = some w.id := by
    rw [hw]
    rfl
  obtain ⟨-, hcb, -⟩ := candidate?_eq_some_iff.1 hc
  obtain ⟨-, hwb, -⟩ := candidate?_eq_some_iff.1 hw
  have hwins : s.Outranks comparators w.index c.index ↔
      (s.ranking comparators).1.beats w.branch c.branch = true := outranks_iff hwb hcb
  have hloses : s.Outranks comparators c.index w.index ↔
      (s.ranking comparators).1.beats c.branch w.branch = true := outranks_iff hcb hwb
  generalize (s.ranking comparators).1 = r at hwins hloses ⊢
  cases hbeats : r.beats w.branch c.branch with
  | true =>
    refine iff_of_true ?_ (.inl rfl)
    rw [hbeats, eq_self_iff_true, iff_true] at hwins
    cases r with
    | declaration => cases hbeats
    | specificity =>
      simp only [Ranking.reason, hbeats, if_true]
      split <;> exact ⟨hname, hwins⟩
    | priority => simpa only [Ranking.reason, hbeats, if_true] using ⟨hname, hwins⟩
    | weight => simpa only [Ranking.reason, hbeats, if_true] using ⟨hname, hwins⟩
    | comparator wins => simpa only [Ranking.reason, hbeats, if_true] using ⟨hname, hwins⟩
  | false =>
    rw [hbeats] at hwins
    have htied : r.reason c w = .tied w.id ∨ r.reason c w = .declaredLater w.id := by
      cases r <;> simp [Ranking.reason, hbeats]
    rcases htied with htied | htied <;>
      simp [htied, LossReason.TrueOf, hname, hwins, hloses]

/-- Of two candidates that nobody dominates the same one comes first among all of them. -/
theorem idxOf_lt_idxOf_iff {w c : Candidate} {left right : List Candidate}
    (hamong : List.Forall₂ (fun i c => s.candidate? nodes i = some c) places among)
    (hsplit : s.undominated among = left ++ w :: right) (hw : w ∉ left)
    (hc : c ∈ s.undominated among) :
    places.idxOf c.index < places.idxOf w.index ↔ c ∈ left := by
  have hindex := map_index_candidates hamong
  have hinj : ∀ c ∈ among, ∀ d ∈ among, c.index = d.index → c = d := by
    intro c hc d hd hcd
    obtain ⟨i, -, hci⟩ := forall₂_of_mem_left hamong.flip hc
    obtain ⟨j, -, hdj⟩ := forall₂_of_mem_left hamong.flip hd
    obtain rfl := (candidate?_eq_some_iff.1 hci).1
    obtain rfl := (candidate?_eq_some_iff.1 hdj).1
    rw [hcd, hdj] at hci
    exact (Option.some.inj hci).symm
  have hwfree : w ∈ s.undominated among := by simp [hsplit]
  rw [← hindex, idxOf_map_of_injOn hinj (List.mem_filter.1 hc).1,
    idxOf_map_of_injOn hinj (List.mem_filter.1 hwfree).1]
  exact idxOf_lt_idxOf_iff_of_filter hsplit hw (List.mem_filter.1 hc).2

/-- A candidate that nobody dominates was overlooked if a scan left it behind only for its
weight. -/
theorem overlooked_iff {w c : Candidate} {left right : List Candidate}
    (hamong : List.Forall₂ (fun i c => s.candidate? nodes i = some c) places among)
    (hsplit : s.undominated among = left ++ w :: right) (hw : w ∉ left)
    (hc : c ∈ s.undominated among) :
    s.Overlooked comparators places w.index c.index ↔
      c ∈ left ∧ (s.ranking comparators).1.weightless c.branch w.branch = true := by
  have hbranch : ∀ d ∈ among, s.branches[d.index]? = some d.branch := by
    intro d hd
    obtain ⟨i, -, hdi⟩ := forall₂_of_mem_left hamong.flip hd
    obtain ⟨rfl, hdb, -⟩ := candidate?_eq_some_iff.1 hdi
    exact hdb
  obtain ⟨hcmem, hcfree⟩ := mem_undominated_iff.1 hc
  have hwfree : w ∈ s.undominated among := by simp [hsplit]
  have hfree : ∀ i ∈ places, ¬s.Dominates i c.index := by
    intro i hi hdominates
    obtain ⟨d, hd, hdi⟩ := forall₂_of_mem_left hamong hi
    obtain ⟨rfl, hdb, -⟩ := candidate?_eq_some_iff.1 hdi
    have hnot := hcfree d hd
    rw [(dominatesIn_iff hdb (hbranch c hcmem)).2 hdominates] at hnot
    cases hnot
  unfold Overlooked
  rw [and_iff_right hfree, idxOf_lt_idxOf_iff hamong hsplit hw hc, hbranch c hcmem,
    hbranch w (mem_undominated_iff.1 hwfree).1]
  simp

/-- A loser that nobody dominates is told the truth unless it was overlooked. -/
theorem trueOf_ranked_iff {l : Loss} {w : Candidate} {left right : List Candidate}
    (hamong : List.Forall₂ (fun i c => s.candidate? nodes i = some c) places among)
    (hsplit : s.undominated among = left ++ w :: right)
    (hirrefl : (s.ranking comparators).1.beats w.branch w.branch = false)
    (hleft : ∀ c ∈ left, (s.ranking comparators).1.Leaves w.branch c.branch)
    (hright : ∀ c ∈ right, (s.ranking comparators).1.beats c.branch w.branch = false)
    (hl : l ∈ rankedLosses (s.ranking comparators).1 w (s.undominated among)) :
    l.reason.TrueOf s comparators nodes places w.index l.branch ↔
      ¬s.Overlooked comparators places w.index l.branch := by
  obtain ⟨c, hc, rfl⟩ := List.mem_map.1 hl
  obtain ⟨hc, hne⟩ := List.mem_filter.1 hc
  have hw : w ∉ left := fun hmem => by
    rcases hleft w hmem with hbeats | hweightless
    · rw [hirrefl] at hbeats
      cases hbeats
    · exact Ranking.not_weightless_self hweightless
  have hwfree : w ∈ s.undominated among := by simp [hsplit]
  obtain ⟨i, hi, hci⟩ := forall₂_of_mem_left hamong.flip (mem_undominated_iff.1 hc).1
  obtain ⟨j, -, hwj⟩ := forall₂_of_mem_left hamong.flip (mem_undominated_iff.1 hwfree).1
  obtain rfl := (candidate?_eq_some_iff.1 hci).1
  obtain rfl := (candidate?_eq_some_iff.1 hwj).1
  have hposition := idxOf_lt_idxOf_iff hamong hsplit hw hc
  rw [trueOf_reason_iff hci hwj, overlooked_iff hamong hsplit hw hc, ← hposition]
  by_cases hmem : c ∈ left
  · have hfirst := hposition.2 hmem
    simp only [hfirst, Nat.lt_asymm hfirst, true_and, false_and, or_false]
    rcases hleft c hmem with hbeats | hweightless
    · rw [hbeats, Ranking.not_weightless_of_beats hbeats]
      decide
    · have hnot : (s.ranking comparators).1.beats w.branch c.branch ≠ true := fun hbeats => by
        rw [Ranking.not_weightless_of_beats hbeats] at hweightless
        cases hweightless
      exact iff_of_false hnot fun hno => hno hweightless
  · have hlater : places.idxOf w.index < places.idxOf c.index := by
      have hapart : places.idxOf c.index ≠ places.idxOf w.index := fun hsame =>
        (bne_iff_ne.1 hne) ((List.idxOf_inj hi).1 hsame)
      have hnot := mt hposition.1 hmem
      omega
    have hcright : c ∈ right := by
      rw [hsplit, List.mem_append, List.mem_cons] at hc
      rcases hc with hc | rfl | hc
      · exact absurd hc hmem
      · exact absurd rfl (bne_iff_ne.1 hne)
      · exact hc
    exact iff_of_true (.inr ⟨hlater, hright c hcright⟩) fun hover =>
      Nat.lt_asymm hlater hover.1

/-- **Losers are told why they lost.**  Whatever the weights of branches are, and with strict weak
orders for comparators, where an arbitration of any places comes to a selection, the explanation of
a loser is true unless the loser was overlooked: what dominates it is a candidate that does, any
other shortcoming is one that the winner ranks above, and a tie is one with a winner in front.  Only
with a weight that is no number may it be overlooked. -/
theorem explanation_true_iff (hcustom : ∀ wins, s.policy = .custom →
      comparators.find? s.comparator = some wins → StrictWeak wins s.branches)
    (h : s.arbitrate comparators nodes places = .ok v) {l : Loss} (hl : l ∈ v.losers) :
    ∃ w, v.winner = some w ∧ (l.reason.TrueOf s comparators nodes places w l.branch ↔
      ¬s.Overlooked comparators places w l.branch) := by
  rcases arbitrate_eq_ok h with ⟨-, -, hnone⟩ | ⟨among, hamong, hsettle⟩
  · rw [hnone] at hl
    exact absurd hl List.not_mem_nil
  obtain ⟨first, rest, hfree, hwinner, hlosers⟩ := settle_eq_ok hsettle
  rw [hlosers, List.mem_mergeSort, List.mem_append] at hl
  have hbehind : LeavesBehind (fun c d : Candidate =>
      (s.ranking comparators).1.beats c.branch d.branch)
      (fun c d => (s.ranking comparators).1.Leaves c.branch d.branch) (first :: rest) := by
    refine .of_map ((leavesBehind_ranking hcustom).subset fun b hb => ?_)
    obtain ⟨c, hc, rfl⟩ := List.mem_map.1 hb
    rw [← hfree] at hc
    obtain ⟨i, -, hci⟩ := forall₂_of_mem_left hamong.flip (mem_undominated_iff.1 hc).1
    exact List.mem_of_getElem? (candidate?_eq_some_iff.1 hci).2.1
  obtain ⟨left, right, hsplit, hleft, hright⟩ := foldl_best_split hbehind
  have hbest : (s.ranking comparators).1.best first rest ∈ first :: rest := by
    rw [hsplit]
    exact List.mem_append_right _ (List.mem_cons_self ..)
  refine ⟨_, hwinner, ?_⟩
  rcases hl with hdominated | hranked
  · obtain ⟨htrue, hover⟩ := trueOf_dominated _ hamong hdominated
    exact iff_of_true htrue hover
  · exact trueOf_ranked_iff hamong (hfree.trans hsplit) (hbehind.irrefl _ hbest) hleft hright
      hranked

/-- Of the branches of the sample the lightest loses to the comparator that prefers it, since
another one dominates it, and that is what it is told. -/
theorem explanation_true_iff_sample :
    ∃ v, sample.arbitrate ⟨[(utf8 "lightest", .lowestWeight)]⟩
        (List.replicate 4 ⟨utf8 "n", .action, []⟩) [0, 1, 2, 3] = .ok v ∧
      ⟨0, .dominated (utf8 "n")⟩ ∈ v.losers ∧
      ∃ w, v.winner = some w ∧
        ((LossReason.dominated (utf8 "n")).TrueOf sample ⟨[(utf8 "lightest", .lowestWeight)]⟩
            (List.replicate 4 ⟨utf8 "n", .action, []⟩) [0, 1, 2, 3] w 0 ↔
          ¬sample.Overlooked ⟨[(utf8 "lightest", .lowestWeight)]⟩ [0, 1, 2, 3] w 0) := by
  have hcustom : ∀ wins, sample.policy = .custom →
      (⟨[(utf8 "lightest", .lowestWeight)]⟩ : Comparators).find? sample.comparator = some wins →
        StrictWeak wins sample.branches := fun wins _ hwins => by
    obtain rfl : Comparator.lowestWeight = wins := Option.some.inj hwins
    exact ⟨by decide, by decide, by decide⟩
  have hdominated : ∀ v, sample.arbitrate ⟨[(utf8 "lightest", .lowestWeight)]⟩
      (List.replicate 4 ⟨utf8 "n", .action, []⟩) [0, 1, 2, 3] = .ok v →
        ⟨0, .dominated (utf8 "n")⟩ ∈ v.losers := by
    rintro v ⟨⟩
    rw [List.mem_mergeSort]
    decide
  exact ⟨_, rfl, hdominated _ rfl, explanation_true_iff hcustom rfl (hdominated _ rfl)⟩

/-- Three offers, of which the weight of the second one is not a number. -/
def unweighedSample : Selector where
  group := utf8 "offers"
  policy := .highestWeight
  comparator := []
  branches := [sample.branch 0 1, { sample.branch 1 0 with weight := .nan }, sample.branch 2 2]
  dominates := []

/-- The nodes of the three offers. -/
def unweighedNodes : List PlanNode :=
  [⟨utf8 "a", .action, []⟩, ⟨utf8 "b", .action, []⟩, ⟨utf8 "c", .action, []⟩]

/-- The third of these offers wins, and the second one is told that it ties with an earlier one. -/
theorem tie_behind_loser : ∃ v, unweighedSample.arbitrate .empty unweighedNodes [0, 1, 2] = .ok v ∧
    v.winner = some 2 ∧ ⟨1, .tied (utf8 "c")⟩ ∈ v.losers ∧
    ¬(LossReason.tied (utf8 "c")).TrueOf unweighedSample .empty unweighedNodes [0, 1, 2] 2 1 := by
  refine ⟨_, rfl, rfl, ?_, fun h => absurd h.2.1 (by decide)⟩
  rw [List.mem_mergeSort]
  decide

end Selector
end DecisionEngine
