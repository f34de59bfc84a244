import DecisionEngine.Proofs.Compile.Declarations
import DecisionEngine.Proofs.Compile.Scheduling
import DecisionEngine.Proofs.Plan.Selection
/-!
# Ties are broken by priority

Of the units that may come next, a plan takes the one with the highest priority, and of those the
one with the smallest id.  Priorities are compared by their negations in 32 bits, and the lowest
priority of all is its own negation: a unit with nothing better is taken before all others.

* `PlanUnit.Tops`, `PlanUnit.Leads` — the highest priority and the smallest id in a unit.
* `PlanUnit.Outranks` — a unit should be taken before another one.
* `PlanUnit.before_iff` — when a unit is taken before another one.
* `FlatGraph.Sorted` — the ids of a graph ascend, and its edges join its rules.
* `FlatGraph.MayFollow` — a unit may come next.
* `nextUnit?_best`, `scheduleWithin_best` — what one step takes, and what every step of a run takes.
* `FlatGraph.ordered_by_priority` — what is taken outranks all that may come next, save that the
  lowest priority of all comes first.
* `FlatGraph.lowest_priority_first` — two actions for which it does.
-/

namespace DecisionEngine

/-! ## Priorities of units -/

namespace PlanUnit

variable {u v : PlanUnit}

/-- The highest priority of a member. -/
def Tops (u : PlanUnit) (p : Int32) : Prop :=
  (∃ n ∈ u.members, n.priority = p) ∧ ∀ n ∈ u.members, n.priority ≤ p

/-- The smallest id of a member. -/
def Leads (u : PlanUnit) (id : Bytes) : Prop :=
  (∃ n ∈ u.members, n.id = id) ∧ ∀ n ∈ u.members, id ≤ n.id

/-- A unit has a higher priority than another one, or the same and a smaller id. -/
def Outranks (u v : PlanUnit) : Prop :=
  ∃ p q a b, u.Tops p ∧ v.Tops q ∧ u.Leads a ∧ v.Leads b ∧ (q < p ∨ p = q ∧ a < b)

theorem Tops.unique {p q : Int32} (hp : u.Tops p) (hq : u.Tops q) : p = q := by
  obtain ⟨⟨n, hn, rfl⟩, hle⟩ := hp
  obtain ⟨⟨m, hm, rfl⟩, hle'⟩ := hq
  exact Int32.le_antisymm (hle' n hn) (hle m hm)

theorem Leads.unique {a b : Bytes} (ha : u.Leads a) (hb : u.Leads b) : a = b := by
  obtain ⟨⟨n, hn, rfl⟩, hle⟩ := ha
  obtain ⟨⟨m, hm, rfl⟩, hle'⟩ := hb
  exact List.le_antisymm (hle m hm) (hle' n hn)

/-- A running maximum is one of the priorities, and none of them is higher. -/
theorem foldl_max_spec (rest : List FlatNode) (p : Int32) :
    (rest.foldl (fun best n => max best n.priority) p = p ∨
        ∃ n ∈ rest, n.priority = rest.foldl (fun best n => max best n.priority) p) ∧
      p ≤ rest.foldl (fun best n => max best n.priority) p ∧
      ∀ n ∈ rest, n.priority ≤ rest.foldl (fun best n => max best n.priority) p := by
  induction rest generalizing p with
  | nil => exact ⟨.inl rfl, Int32.le_refl p, fun n hn => nomatch hn⟩
  | cons m rest ih =>
    rw [List.foldl_cons]
    have hmax : max p m.priority = if p ≤ m.priority then m.priority else p := rfl
    obtain ⟨hattained, hfirst, hrest⟩ := ih (max p m.priority)
    generalize rest.foldl (fun best n => max best n.priority) (max p m.priority) = top at *
    by_cases hle : p ≤ m.priority
    · rw [if_pos hle] at hmax
      rw [hmax] at hattained hfirst
      refine ⟨.inr ?_, Int32.le_trans hle hfirst, ?_⟩
      · rcases hattained with rfl | ⟨n, hn, hp⟩
        · exact ⟨m, List.mem_cons_self, rfl⟩
        · exact ⟨n, List.mem_cons_of_mem _ hn, hp⟩
      · intro n hn
        rcases List.mem_cons.1 hn with rfl | hn
        · exact hfirst
        · exact hrest n hn
    · rw [if_neg hle] at hmax
      rw [hmax] at hattained hfirst
      refine ⟨hattained.imp_right ?_, hfirst, ?_⟩
      · rintro ⟨n, hn, hp⟩
        exact ⟨n, List.mem_cons_of_mem _ hn, hp⟩
      · intro n hn
        rcases List.mem_cons.1 hn with rfl | hn
        · exact Int32.le_trans (Int32.le_of_lt (Int32.not_le.1 hle)) hfirst
        · exact hrest n hn

/-- The priority of a unit is the highest one of its members. -/
theorem tops_priority (h : u.members ≠ []) : u.Tops u.priority := by
  obtain ⟨m, rest, hmembers⟩ := List.exists_cons_of_ne_nil h
  obtain ⟨hattained, hfirst, hrest⟩ := foldl_max_spec rest m.priority
  unfold Tops priority
  rw [hmembers]
  refine ⟨?_, ?_⟩
  · rcases hattained with heq | ⟨n, hn, hp⟩
    · exact ⟨m, List.mem_cons_self, heq.symm⟩
    · exact ⟨n, List.mem_cons_of_mem _ hn, hp⟩
  · intro n hn
    rcases List.mem_cons.1 hn with rfl | hn
    · exact hfirst
    · exact hrest n hn

/-- The first id of a unit with ascending ids is the smallest one. -/
theorem leads_firstId (h : u.members ≠ []) (hids : u.members.Pairwise fun n m => n.id < m.id) :
    u.Leads u.firstId := by
  obtain ⟨m, rest, hmembers⟩ := List.exists_cons_of_ne_nil h
  unfold Leads firstId
  rw [hmembers] at hids ⊢
  refine ⟨⟨m, List.mem_cons_self, rfl⟩, ?_⟩
  intro n hn
  rcases List.mem_cons.1 hn with rfl | hn
  · exact List.le_refl _
  · exact Std.le_of_lt ((List.pairwise_cons.1 hids).1 n hn)

/-! ## Which unit is taken -/

/-- Negation turns the order around, save for the lowest number, which is its own negation. -/
theorem neg_lt_neg_iff {a b : Int32} :
    -a < -b ↔ b ≠ Int32.minValue ∧ (a = Int32.minValue ∨ b < a) := by
  have ha := Int32.le_toInt a
  have ha' := Int32.toInt_lt a
  have hb := Int32.le_toInt b
  have hb' := Int32.toInt_lt b
  have hmin : Int32.minValue.toInt = -2147483648 := rfl
  rw [Int32.lt_iff_toInt_lt, Int32.lt_iff_toInt_lt, ne_eq, ← Int32.toInt_inj, ← Int32.toInt_inj,
    hmin, Int32.toInt_neg, Int32.toInt_neg, Int.bmod_def, Int.bmod_def]
  omega

/-- When a unit is taken before another one. -/
theorem before_iff : u.before v = true ↔
    (v.priority ≠ Int32.minValue ∧ (u.priority = Int32.minValue ∨ v.priority < u.priority)) ∨
      (u.priority = v.priority ∧ u.firstId < v.firstId) := by
  unfold before
  rw [Bool.or_eq_true, Bool.and_eq_true, decide_eq_true_iff, decide_eq_true_iff, beq_iff_eq,
    Int32.neg_inj, neg_lt_neg_iff]

/-- Taking one unit before another one is a strict weak order. -/
theorem strictWeak_before (units : List PlanUnit) : StrictWeak before units := by
  have hirrefl : ∀ id : Bytes, ¬id < id := fun id => List.lt_irrefl id
  have htrans : ∀ {a b c : Bytes}, a < b → b < c → a < c := List.lt_trans
  have hconnected : ∀ a b : Bytes, a < b ∨ a = b ∨ b < a := fun a b => by
    rcases List.le_total a b with h | h
    · rcases Std.le_iff_lt_or_eq.1 h with h | h
      · exact .inl h
      · exact .inr (.inl h)
    · rcases Std.le_iff_lt_or_eq.1 h with h | h
      · exact .inr (.inr h)
      · exact .inr (.inl h.symm)
  refine ⟨?_, ?_, ?_⟩
  · intro u _
    rw [Bool.eq_false_iff, ne_eq, before_iff]
    grind
  · intro u _ v _ w _
    rw [before_iff, before_iff, before_iff]
    grind
  · intro u _ v _ w _
    simp only [Bool.eq_false_iff, ne_eq, before_iff]
    grind

end PlanUnit

/-! ## Steps and runs -/

section

variable {depends : PlanUnit → PlanUnit → Bool} {left order : List PlanUnit} {u v : PlanUnit}

/-- One step takes a unit that no other one comes before, of those that depend on nothing left. -/
theorem nextUnit?_best (h : nextUnit? depends left = some u) (hv : v ∈ left)
    (hfree : ∀ w ∈ left, w ≠ v → depends v w = false) : v.before u = false := by
  have hready : v ∈ left.filter fun u => !left.any fun w => w != u && depends u w := by
    refine List.mem_filter.2 ⟨hv, ?_⟩
    simp only [Bool.not_eq_true', List.any_eq_false, Bool.and_eq_true, bne_iff_ne, not_and,
      Bool.not_eq_true]
    exact hfree
  unfold nextUnit? at h
  dsimp only at h
  split at h
  · cases h
  · rename_i first rest hr
    have hbest := Option.some.inj h
    have hweak := PlanUnit.strictWeak_before (first :: rest)
    obtain ⟨front, back, hsplit, hfront, hback⟩ := foldl_best_spec hweak
    rw [hbest] at hsplit hfront hback
    rw [hr] at hready
    have hmem : ∀ w ∈ front ++ u :: back, w ∈ first :: rest := fun w hw => hsplit ▸ hw
    have hu : u ∈ first :: rest := hmem u (by simp)
    rw [hsplit] at hready
    rcases List.mem_append.1 hready with hin | hin
    · exact hweak.asymm hu (hmem v (List.mem_append_left _ hin)) (hfront v hin)
    · rcases List.mem_cons.1 hin with rfl | hin
      · exact hweak.irrefl v hu
      · exact hback v hin

/-- Every step of a complete schedule takes such a unit, of those that are left to take. -/
theorem scheduleWithin_best {steps : Nat}
    (h : scheduleWithin depends steps left = (order, [])) {before after : List PlanUnit}
    (hsplit : order = before ++ u :: after) (hv : v ∈ u :: after)
    (hfree : ∀ w ∈ u :: after, w ≠ v → depends v w = false) : v.before u = false := by
  -- The induction is on the steps; a split of the order behind its first unit is one of the rest.
  induction steps generalizing left order before with
  | zero =>
    obtain ⟨rfl, -⟩ := Prod.mk.inj h
    simp at hsplit
  | succ steps ih =>
    have hperm := (scheduleWithin_spec h).1
    rw [scheduleWithin] at h
    cases hnext : nextUnit? depends left with
    | none =>
      rw [hnext] at h
      obtain ⟨rfl, -⟩ := Prod.mk.inj h
      simp at hsplit
    | some first =>
      rw [hnext] at h
      dsimp only at h
      obtain ⟨rfl, hstuck⟩ := Prod.mk.inj h
      cases before with
      | nil =>
        obtain ⟨rfl, rfl⟩ := List.cons.inj hsplit
        exact nextUnit?_best hnext (hperm.mem_iff.1 hv) fun w hw => hfree w (hperm.mem_iff.2 hw)
      | cons _ before =>
        obtain ⟨-, hrest⟩ := List.cons.inj hsplit
        exact ih (Prod.ext rfl hstuck) hrest

end

/-! ## Units of a graph -/

namespace FlatGraph

variable {k : FlatGraph} {u v : PlanUnit}

/-- The ids of a graph ascend, and its edges join its rules. -/
structure Sorted (k : FlatGraph) : Prop extends k.Tidy where
  ascending : k.ids.Pairwise (· < ·)

/-- A unit has to come before another one. -/
def Precedes (k : FlatGraph) (w v : PlanUnit) : Prop :=
  w ≠ v ∧ ∃ e ∈ k.edges, ∃ a b, e.ordering? = some (a, b) ∧ w.has a = true ∧ v.has b = true

/-- A unit may follow the ones that are placed: it is not placed yet, and all units that have to come
before it are. -/
structure MayFollow (k : FlatGraph) (placed : List PlanUnit) (v : PlanUnit) : Prop where
  unit : v ∈ k.units
  left : v ∉ placed
  supplied : ∀ w ∈ k.units, k.Precedes w v → w ∈ placed

theorem precedes_iff {w : PlanUnit} :
    k.Precedes w v ↔ w ≠ v ∧ dependsOn k.edges v w = true := by
  unfold Precedes dependsOn
  simp only [List.any_eq_true, Option.any_eq_true, Bool.and_eq_true, Prod.exists]

instance (k : FlatGraph) (w v : PlanUnit) : Decidable (k.Precedes w v) :=
  decidable_of_iff _ precedes_iff.symm

instance (k : FlatGraph) (placed : List PlanUnit) (v : PlanUnit) :
    Decidable (k.MayFollow placed v) :=
  decidable_of_iff (v ∈ k.units ∧ v ∉ placed ∧ ∀ w ∈ k.units, k.Precedes w v → w ∈ placed)
    ⟨fun ⟨hunit, hleft, hsupplied⟩ => ⟨hunit, hleft, hsupplied⟩,
      fun ⟨hunit, hleft, hsupplied⟩ => ⟨hunit, hleft, hsupplied⟩⟩

/-- The units of a graph are distinct. -/
theorem Tidy.nodup_units (hk : k.Tidy) : k.units.Nodup := by
  have hmembers : (k.units.flatMap (·.members)).Nodup :=
    hk.units_perm.nodup_iff.2 (List.Nodup.of_map _ hk.nodup)
  refine (List.Pairwise.and_mem.1 (List.nodup_flatMap.1 hmembers).2).imp ?_
  rintro u _ ⟨hu, -, hdisjoint⟩ rfl
  obtain ⟨n, rest, hn⟩ := List.exists_cons_of_ne_nil (members_ne_nil hu)
  have hmem : n ∈ u.members := hn ▸ List.mem_cons_self
  exact hdisjoint hmem hmem

/-- The ids of a unit ascend. -/
theorem Sorted.ascending_unit (hk : k.Sorted) (hu : u ∈ k.units) :
    u.members.Pairwise fun n m => n.id < m.id :=
  (List.pairwise_map.1 hk.ascending).sublist (sublist_of_mem_units hu)

theorem tops_priority (hu : u ∈ k.units) : u.Tops u.priority :=
  PlanUnit.tops_priority (members_ne_nil hu)

theorem Sorted.leads (hk : k.Sorted) (hu : u ∈ k.units) : u.Leads u.firstId :=
  PlanUnit.leads_firstId (members_ne_nil hu) (hk.ascending_unit hu)

theorem tops_iff (hu : u ∈ k.units) {p : Int32} :
    u.Tops p ↔ u.priority = p :=
  ⟨fun h => (tops_priority hu).unique h, fun h => h ▸ tops_priority hu⟩

theorem Sorted.outranks_iff (hk : k.Sorted) (hu : u ∈ k.units) (hv : v ∈ k.units) :
    u.Outranks v ↔
      v.priority < u.priority ∨ u.priority = v.priority ∧ u.firstId < v.firstId := by
  constructor
  · rintro ⟨p, q, a, b, hp, hq, ha, hb, h⟩
    rw [(tops_iff hu).1 hp, (tops_iff hv).1 hq, (hk.leads hu).unique ha,
      (hk.leads hv).unique hb]
    exact h
  · exact fun h => ⟨_, _, _, _, tops_priority hu, tops_priority hv, hk.leads hu, hk.leads hv, h⟩

/-- Different units have different first ids. -/
theorem Sorted.firstId_ne (hk : k.Sorted) (hu : u ∈ k.units) (hv : v ∈ k.units) (hne : v ≠ u) :
    u.firstId ≠ v.firstId := by
  intro hsame
  have hfirst := firstId_mem (members_ne_nil hu)
  obtain ⟨n, hn, hid⟩ := PlanUnit.has_iff.1 hfirst
  have hknown : u.firstId ∈ k.ids :=
    hid ▸ List.mem_map_of_mem ((hk.mem_unit_iff hu hn).1 hn).1
  have hother : v.has u.firstId = true := hsame ▸ firstId_mem (members_ne_nil hv)
  exact hne (hk.eq_of_has hv hu hknown hother hfirst)

/-- A unit depends on another one exactly if that has to come before it. -/
theorem Tidy.dependsOn_iff (hk : k.Tidy) (hv : v ∈ k.units) {w : PlanUnit} (hw : w ∈ k.units)
    (hne : w ≠ v) : dependsOn k.outerEdges v w = true ↔ k.Precedes w v := by
  constructor
  · intro h
    obtain ⟨e, he, hends⟩ := List.any_eq_true.1 h
    obtain ⟨⟨a, b⟩, hordering, hhas⟩ := (Option.any_eq_true ..).1 hends
    obtain ⟨ha, hb⟩ := Bool.and_eq_true_iff.1 hhas
    exact ⟨hne, e, (List.mem_filter.1 (List.mem_filter.1 he).1).1, a, b, hordering, ha, hb⟩
  · rintro ⟨-, e, he, a, b, hordering, ha, hb⟩
    have hends := Edge.ends_of_ordering? hordering
    have hbk : b ∈ k.ids := by
      rcases hends with ⟨-, rfl⟩ | ⟨-, rfl⟩
      · exact (hk.ends e he).2
      · exact (hk.ends e he).1
    have houter : isInner k.units e ≠ true := by
      intro hinner
      obtain ⟨x, hx, hsource, htarget⟩ := isInner_iff.1 hinner
      have hboth : x.has a = true ∧ x.has b = true := by
        rcases hends with ⟨rfl, rfl⟩ | ⟨rfl, rfl⟩
        · exact ⟨hsource, htarget⟩
        · exact ⟨htarget, hsource⟩
      have hwb : w.has b = true := hk.has_of_inner hw ha hx hboth.2 hboth.1
      exact hne (hk.eq_of_has hw hv hbk hwb hb)
    refine List.any_eq_true.2 ⟨e, List.mem_filter.2 ⟨List.mem_filter.2 ⟨he, ?_⟩, ?_⟩, ?_⟩
    · rw [hordering]
      rfl
    · simpa using houter
    · rw [hordering]
      simp [ha, hb]

/-- A unit that is taken may come next where it is. -/
theorem Tidy.mayFollow_of_ordered (hk : k.Tidy) (hordered : k.ordered.2.failed = false)
    {before after : List PlanUnit} (hsplit : k.ordered.1 = before ++ u :: after) :
    k.MayFollow before u := by
  obtain ⟨hperm, htopological, -⟩ := ordered_spec hordered
  have hnodup : (before ++ u :: after).Nodup := hsplit ▸ hperm.nodup_iff.2 hk.nodup_units
  have hu : u ∈ k.units := hperm.mem_iff.1 (by simp [hsplit])
  refine ⟨hu, fun hplaced => ?_, fun w hw hprecedes => ?_⟩
  · exact (List.nodup_append.1 hnodup).2.2 u hplaced u List.mem_cons_self rfl
  · have hmem : w ∈ before ++ u :: after := hsplit ▸ hperm.mem_iff.2 hw
    rcases List.mem_append.1 hmem with hbefore | hafter
    · exact hbefore
    · have hlater := (List.mem_cons.1 hafter).resolve_left hprecedes.1
      have hdepends := (hk.dependsOn_iff hu hw hprecedes.1).2 hprecedes
      rw [outerEdges, htopological before u after hsplit w hlater hprecedes.1] at hdepends
      cases hdepends

/-- No unit that may come next comes before the one that is taken. -/
theorem Tidy.before_of_mayFollow (hk : k.Tidy) (hordered : k.ordered.2.failed = false)
    {before after : List PlanUnit} (hsplit : k.ordered.1 = before ++ u :: after)
    (hv : k.MayFollow before v) : v.before u = false := by
  obtain ⟨hperm, -, -⟩ := ordered_spec hordered
  have hnodup : (before ++ u :: after).Nodup := hsplit ▸ hperm.nodup_iff.2 hk.nodup_units
  have hleft : v ∈ u :: after := by
    have hmem : v ∈ before ++ u :: after := hsplit ▸ hperm.mem_iff.2 hv.unit
    exact (List.mem_append.1 hmem).resolve_left hv.left
  refine scheduleWithin_best (ordered_schedule hordered).1 hsplit hleft ?_
  intro w hw hne
  have hunit : w ∈ k.units := hperm.mem_iff.1 (by rw [hsplit]; exact List.mem_append_right _ hw)
  rw [Bool.eq_false_iff]
  intro hdepends
  have hplaced := hv.supplied w hunit ((hk.dependsOn_iff hv.unit hunit hne).1 hdepends)
  exact (List.nodup_append.1 hnodup).2.2 w hplaced w hw rfl

end FlatGraph

/-! ## Kept leaves -/

namespace Revision

/-- The graph of kept leaves of a checked revision is sorted. -/
theorem Checked.sorted {r : Revision} (h : r.Checked) (o : CompilerOptions) :
    (r.keptGraph o).Sorted := by
  refine ⟨(h.depicts o).tidy, ?_⟩
  have hnormal := NormalGraph.ids_ascending h.normal
  have hflat : (NormalGraph.ofRevision r).1.flat.nodes.Pairwise fun a b => a.id < b.id :=
    List.pairwise_map.2 (hnormal.sublist List.filter_sublist)
  exact List.pairwise_map.2 (hflat.sublist List.filter_sublist)

/-- A decision that leads to an action `a` with priority 0 and an action `b` with another one. -/
def twoActions (q : Int32) : Revision where
  graph := utf8 "offers"
  version := 1
  tenant := []
  decisionType := []
  catalog := .empty
  nodes := [⟨utf8 "start", [], 0, .zero, .decision ⟨[], []⟩⟩,
    ⟨utf8 "a", [], 0, .zero, .action ⟨[], []⟩ ⟨utf8 "a", .empty⟩⟩,
    ⟨utf8 "b", [], q, .zero, .action ⟨[], []⟩ ⟨utf8 "b", .empty⟩⟩]
  edges := [⟨utf8 "start", .flowsTo, utf8 "a"⟩, ⟨utf8 "start", .flowsTo, utf8 "b"⟩]
  policy := .highestPriority
  comparator := []
  guardrails := []

end Revision

/-! ## The order of a plan -/

namespace FlatGraph

variable {k : FlatGraph} {u : PlanUnit}

/-- **Ties are broken by priority, then by id**, save for the lowest priority of all, which comes
first.  Whenever a unit is taken, it may follow what was taken before.  If another unit that may has
nothing better than the lowest priority of all, then neither has the one taken; and the one taken
outranks the other one, unless it has nothing better than the lowest priority of all and the other
one has. -/
theorem ordered_by_priority (hk : k.Sorted) (hordered : k.ordered.2.failed = false)
    {before after : List PlanUnit} (hsplit : k.ordered.1 = before ++ u :: after) :
    k.MayFollow before u ∧ ∀ v, k.MayFollow before v → v ≠ u →
      (v.Tops Int32.minValue → u.Tops Int32.minValue) ∧
        (u.Outranks v ↔ ¬(u.Tops Int32.minValue ∧ ¬v.Tops Int32.minValue)) := by
  have hu := hk.mayFollow_of_ordered hordered hsplit
  refine ⟨hu, fun v hv hne => ?_⟩
  have hbest := hk.before_of_mayFollow hordered hsplit hv
  have hids := hk.firstId_ne hu.unit hv.unit hne
  have hasymm : u.firstId < v.firstId → ¬v.firstId < u.firstId := List.lt_asymm
  have hconnected : u.firstId < v.firstId ∨ v.firstId < u.firstId := by
    rcases List.le_total u.firstId v.firstId with h | h
    · exact .inl (Std.lt_of_le_of_ne h hids)
    · exact .inr (Std.lt_of_le_of_ne h hids.symm)
  rw [Bool.eq_false_iff, ne_eq, PlanUnit.before_iff] at hbest
  rw [tops_iff hu.unit, tops_iff hv.unit, hk.outranks_iff hu.unit hv.unit]
  have hlowest : Int32.minValue ≤ v.priority := Int32.minValue_le v.priority
  have htotal := Int32.lt_or_lt_of_ne (a := u.priority) (b := v.priority)
  have hgap := fun h : Int32.minValue < v.priority => Int32.ne_of_lt h
  grind

/-- The rules of two actions behind a decision. -/
def tied (q : Int32) : FlatGraph := (Revision.twoActions q).keptGraph .standard

/-- The unit of the decision. -/
def tiedStart (q : Int32) : PlanUnit := (tied q).unitOf (utf8 "start")

/-- The unit of the first action. -/
def tiedA (q : Int32) : PlanUnit := (tied q).unitOf (utf8 "a")

/-- The unit of the second action. -/
def tiedB (q : Int32) : PlanUnit := (tied q).unitOf (utf8 "b")

/-- Of two units behind a first one, one may come next that does not depend on the other. -/
theorem mayFollow_first {first v w : PlanUnit} (hunits : k.units = [v, w, first])
    (hne : v ≠ first) (hfree : dependsOn k.edges v w = false) : k.MayFollow [first] v := by
  refine ⟨by simp [hunits], by simpa using hne, fun x hx hbefore => ?_⟩
  obtain ⟨hother, hdepends⟩ := precedes_iff.1 hbefore
  have hcases : x = v ∨ x = w ∨ x = first := by simpa [hunits] using hx
  rcases hcases with rfl | rfl | rfl
  · exact absurd rfl hother
  · exact absurd hdepends (Bool.eq_false_iff.1 hfree)
  · exact List.mem_singleton_self _

set_option maxRecDepth 100000 in
theorem ordered_by_priority_sample :
    (tied 5).Sorted ∧ (tied 5).ordered.2.failed = false ∧
      (tied 5).ordered.1 = [tiedStart 5] ++ tiedB 5 :: [tiedA 5] ∧
      (tied 5).MayFollow [tiedStart 5] (tiedB 5) ∧ (tied 5).MayFollow [tiedStart 5] (tiedA 5) ∧
      (tiedB 5).Outranks (tiedA 5) := by
  have haccepted : (Revision.twoActions 5).accepted .standard = true := by cbv
  have hpassed := Revision.accepted_iff.1 haccepted
  have hsorted : (tied 5).Sorted := hpassed.checked.sorted .standard
  have hordered : (tied 5).ordered.2.failed = false := hpassed.ordered
  have hsplit : (tied 5).ordered.1 = [tiedStart 5] ++ tiedB 5 :: [tiedA 5] := by cbv
  have hunits : (tied 5).units = [tiedA 5, tiedB 5, tiedStart 5] := by cbv
  have hfirst : decide (tiedA 5 = tiedStart 5) = false := by cbv
  have hfree : dependsOn (tied 5).edges (tiedA 5) (tiedB 5) = false := by cbv
  have hother : decide (tiedA 5 ≠ tiedB 5) = true := by cbv
  have hpriority : (tiedB 5).priority = 5 := by cbv
  have hmay := mayFollow_first hunits (of_decide_eq_false hfirst) hfree
  obtain ⟨htaken, hall⟩ := ordered_by_priority hsorted hordered hsplit
  have houtranks := (hall _ hmay (of_decide_eq_true hother)).2
  refine ⟨hsorted, hordered, hsplit, htaken, hmay, houtranks.2 ?_⟩
  rintro ⟨hlowest, -⟩
  rw [tops_iff htaken.unit, hpriority] at hlowest
  exact absurd hlowest (by decide)

set_option maxRecDepth 100000 in
/-- An action with the lowest priority of all is taken before one with a higher priority that may
come next as well. -/
theorem lowest_priority_first :
    (tied Int32.minValue).Sorted ∧ (tied Int32.minValue).ordered.2.failed = false ∧
      (tied Int32.minValue).ordered.1 =
        [tiedStart Int32.minValue] ++ tiedB Int32.minValue :: [tiedA Int32.minValue] ∧
      (tied Int32.minValue).MayFollow [tiedStart Int32.minValue] (tiedA Int32.minValue) ∧
      tiedA Int32.minValue ≠ tiedB Int32.minValue ∧
      ¬(tiedB Int32.minValue).Outranks (tiedA Int32.minValue) := by
  have haccepted : (Revision.twoActions Int32.minValue).accepted .standard = true := by cbv
  have hpassed := Revision.accepted_iff.1 haccepted
  have hsorted : (tied Int32.minValue).Sorted := hpassed.checked.sorted .standard
  have hordered : (tied Int32.minValue).ordered.2.failed = false := hpassed.ordered
  have hsplit : (tied Int32.minValue).ordered.1 =
      [tiedStart Int32.minValue] ++ tiedB Int32.minValue :: [tiedA Int32.minValue] := by cbv
  have hunits : (tied Int32.minValue).units =
      [tiedA Int32.minValue, tiedB Int32.minValue, tiedStart Int32.minValue] := by cbv
  have hfirst : decide (tiedA Int32.minValue = tiedStart Int32.minValue) = false := by cbv
  have hfree : dependsOn (tied Int32.minValue).edges (tiedA Int32.minValue)
      (tiedB Int32.minValue) = false := by cbv
  have hother : decide (tiedA Int32.minValue ≠ tiedB Int32.minValue) = true := by cbv
  have hmay := mayFollow_first hunits (of_decide_eq_false hfirst) hfree
  have htaken := hsorted.mayFollow_of_ordered hordered hsplit
  refine ⟨hsorted, hordered, hsplit, hmay, of_decide_eq_true hother, ?_⟩
  rw [hsorted.outranks_iff htaken.unit hmay.unit]
  have ha : (tiedA Int32.minValue).priority = 0 := by cbv
  have hb : (tiedB Int32.minValue).priority = Int32.minValue := by cbv
  rw [ha, hb]
  rintro (hlower | ⟨hsame, -⟩)
  · exact absurd hlower (by decide)
  · exact absurd hsame (by decide)

end FlatGraph
end DecisionEngine
