import DecisionEngine.Proofs.Compile.Contests
import DecisionEngine.Proofs.Compile.Emitted
import DecisionEngine.Proofs.Plan.Ranking
/-!
# Running contests

The steps of a plan are what its contests are emitted as, one after another.  What a rule asks for
is settled when its contest comes: by contests before it, which nothing changes afterwards, or by
rules of its own contest, none of which has fired yet.

* `EmissionContext.CarriesOut` — a plan carries out contests.
* `EmissionContext.CarriesOut.winner_rel` — the winner of a step is the rule that is picked of the
  eligible ones.
* `EmissionContext.Stage` — how far a run has come between two steps.
* `EmissionContext.CarriesOut.exists_runSteps` — running such a plan settles every contest.
-/

namespace DecisionEngine

open Relation (TransGen EqvGen)

/-- Everything in a plan can be addressed by numbers of 32 bits: nodes and symbols by operands,
instructions by the targets of jumps. -/
structure Blueprint.Addressable (b : Blueprint) : Prop where
  nodes : b.nodes.length ≤ 2 ^ 32
  symbols : b.symbols.names.length ≤ 2 ^ 32
  code : ∀ step ∈ b.steps, ∀ g ∈ step.guards, g.program.code.length < 2 ^ 32

instance (b : Blueprint) : Decidable b.Addressable :=
  decidable_of_iff (b.nodes.length ≤ 2 ^ 32 ∧ b.symbols.names.length ≤ 2 ^ 32 ∧
      ∀ step ∈ b.steps, ∀ g ∈ step.guards, g.program.code.length < 2 ^ 32)
    ⟨fun ⟨hnodes, hsymbols, hcode⟩ => ⟨hnodes, hsymbols, hcode⟩,
      fun h => ⟨h.nodes, h.symbols, h.code⟩⟩

/-! ## Steps -/

/-- A plan carries out the contests of a revision: it numbers their rules, and its steps are what
the contests are emitted as, in their order. -/
structure EmissionContext.CarriesOut (c : EmissionContext) (r : Revision) (k : FlatGraph)
    (cs : List Contest) (b : Blueprint) : Prop where
  tidy : k.Tidy
  arranges : k.Arranges cs
  usable : ∀ n ∈ k.nodes, n.Usable
  edges : c.edges = k.edges
  table : c.table = (cs.flatMap (·.members)).map (·.id)
  nodes : b.nodes.map (·.id) = c.table
  plans : List.Forall₂ (fun contest step => c.Plans r.policy r.comparator contest b.symbols step)
    cs b.steps
  addressable : b.Addressable

/-- What a plan is run on by the catalog that it was emitted with. -/
abbrev EmissionContext.situation (c : EmissionContext) (b : Blueprint)
    (attributes inputs : AttributeSet) (verbose : Bool) (comparators : Comparators) : Situation :=
  .ofAttributes b (c.catalog.maskOf attributes) attributes inputs verbose comparators false

/-- A rule as a branch, for what it is ranked by: without number, mask and program. -/
def FlatNode.asBranch (n : FlatNode) : Branch :=
  ⟨0, ⟨0, .empty, n.labels, []⟩, n.priority, n.weight, n.outcome, n.order⟩

/-- Whether a rule beats another one where comparators are impartial. -/
def Revision.beats (r : Revision) (comparators : Comparators) (n m : FlatNode) : Bool :=
  ((Selector.mk [] r.policy r.comparator [] []).ranking comparators).1.beats n.asBranch m.asBranch

theorem EmissionContext.Offers.alike {c : EmissionContext} {n : FlatNode} {b : Branch}
    {symbols : SymbolTable} (h : c.Offers n b symbols) :
    b.Alike n.asBranch ∧ b.Counted ∧ n.asBranch.Counted := by
  refine ⟨⟨h.priority, h.weight, h.outcome, h.order, h.guards.labels⟩, ?_, ?_⟩
  · unfold Branch.Counted
    rw [h.guards.mask, h.guards.labels]
    exact c.count_mask_le n
  · have hzero : Mask.count 0 = 0 := by decide
    exact hzero.trans_le (Nat.zero_le _)

/-- A winner of a step is a rule of a contest. -/
structure EmissionContext.Names (c : EmissionContext) (contest : Contest) (n : FlatNode)
    (w : Winner) : Prop where
  mem : n ∈ contest.members
  node : w.node = c.number n.id
  id : w.id = n.id
  outcome : w.outcome = n.outcome

/-- A candidate is that of a rule whose contest has its rules offered by branches. -/
structure Contest.Offered (contest : Contest) (f : FlatNode → Branch) (n : FlatNode)
    (d : Candidate) : Prop where
  place : contest.members[d.index]? = some n
  branch : d.branch = f n
  id : d.id = n.id

theorem Contest.Offered.mem {contest : Contest} {f : FlatNode → Branch} {n : FlatNode}
    {d : Candidate} (h : contest.Offered f n d) : n ∈ contest.members :=
  List.mem_of_getElem? h.place

namespace EmissionContext.CarriesOut

variable {c : EmissionContext} {k : FlatGraph} {cs before after : List Contest} {b : Blueprint}
variable {contest : Contest} {step : Step} {fired : List Bool} {r : Revision}
variable {attributes inputs : AttributeSet} {verbose : Bool} {comparators : Comparators}

theorem mem_table (h : c.CarriesOut r k cs b) {id : Bytes} : id ∈ c.table ↔ id ∈ k.ids := by
  rw [h.table]
  exact (h.arranges.perm.map _).mem_iff

theorem length_table (h : c.CarriesOut r k cs b) : c.table.length = b.nodes.length := by
  rw [← h.nodes, List.length_map]

theorem numbered (h : c.CarriesOut r k cs b) : c.Numbered := by
  refine ⟨fun e he => ?_, ?_⟩
  · rw [h.mem_table, h.mem_table]
    exact h.tidy.ends e (h.edges ▸ he)
  · rw [h.length_table]
    exact h.addressable.nodes

/-- Before anything of a contest has fired, its rules ask for what makes them eligible. -/
theorem asks_iff (h : c.CarriesOut r k cs b) (hsplit : cs = before ++ contest :: after)
    (hnone : ∀ id, contest.Has id → ¬c.Fired fired id) {n : FlatNode} (hn : n ∈ contest.members) :
    c.Asks n ⟨attributes, inputs, .empty, fired⟩ ↔
      k.Eligible ⟨attributes, inputs, .empty, []⟩ (c.Fired fired) n := by
  have hc : contest ∈ cs := by simp [hsplit]
  have hvalue : ∀ x : Expr, x.value ⟨attributes, inputs, .empty, fired⟩ =
      x.value ⟨attributes, inputs, .empty, []⟩ := by
    intro x
    refine Expr.value_congr (fun r => ?_) x
    rcases r with ⟨scope, name, position⟩
    cases scope <;> rfl
  have hmet : n.Met ⟨attributes, inputs, .empty, fired⟩ ↔
      n.Met ⟨attributes, inputs, .empty, []⟩ := by
    constructor
    · rintro ⟨hlabels, hexpressions⟩
      exact ⟨hlabels, fun x hx => hvalue _ ▸ hexpressions x hx⟩
    · rintro ⟨hlabels, hexpressions⟩
      exact ⟨hlabels, fun x hx => (hvalue _).symm ▸ hexpressions x hx⟩
  constructor
  · rintro ⟨hm, hrequired, hneutralized, hreached⟩
    rw [h.edges] at hrequired hneutralized hreached
    exact ⟨hmet.1 hm, hrequired, fun a ha _ => hneutralized a ha, hreached⟩
  · rintro ⟨hm, hrequired, hneutralized, hreached⟩
    rw [← h.edges] at hrequired hneutralized hreached
    refine ⟨hmet.2 hm, hrequired, fun a ha => ?_, hreached⟩
    by_cases hrival : EqvGen k.Excludes n.id a
    · have hid : a ∈ k.ids := (h.tidy.ends _ (h.edges ▸ ha)).1
      exact hnone a ((h.arranges.has_iff hc hn hid).2 hrival)
    · exact hneutralized a ha hrival

theorem fired_set (h : c.CarriesOut r k cs b) (hlength : fired.length = c.table.length)
    {a id : Bytes} (ha : a ∈ c.table) :
    c.Fired (fired.set (c.number a) true) id ↔ id = a ∨ c.Fired fired id := by
  have hlt : c.number a < fired.length := hlength ▸ (h.numbered.number_lt ha).1
  have hinj : c.number a = c.number id ↔ a = id := List.idxOf_inj ha
  unfold Fired
  by_cases hsame : id = a
  · simp [hsame, hlt]
  · rw [List.getElem?_set_ne fun hnumber => hsame (hinj.1 hnumber).symm]
    simp [hsame]

theorem mem_table_of_has (h : c.CarriesOut r k cs b) {d : Contest} (hd : d ∈ cs) {id : Bytes}
    (hid : d.Has id) : id ∈ c.table := by
  obtain ⟨n, hn, rfl⟩ := hid
  exact h.mem_table.2 (List.mem_map_of_mem (h.arranges.mem_nodes hd hn))

theorem eq_of_id (h : c.CarriesOut r k cs b) {d : Contest} (hd : d ∈ cs) {n m : FlatNode}
    (hn : n ∈ d.members) (hm : m ∈ d.members) (hid : n.id = m.id) : n = m :=
  List.inj_on_of_nodup_map h.tidy.nodup (h.arranges.mem_nodes hd hn) (h.arranges.mem_nodes hd hm)
    hid

/-- The guards of a step pass exactly for the eligible rules, before anything of the contest has
fired. -/
theorem passes_iff_eligible (h : c.CarriesOut r k cs b) (hsplit : cs = before ++ contest :: after)
    (hstep : step ∈ b.steps) (hlength : fired.length = c.table.length)
    (hnone : ∀ id, contest.Has id → ¬c.Fired fired id) {n : FlatNode} (hn : n ∈ contest.members)
    {ch : Nat × Guard} (hch : ch ∈ step.choices) (hg : c.Guards n ch.2 b.symbols) :
    (c.situation b attributes inputs verbose comparators).Passes fired ch.2 ↔
      k.Eligible ⟨attributes, inputs, .empty, []⟩ (c.Fired fired) n := by
  have hc : contest ∈ cs := by simp [hsplit]
  have hguard : ch.2 ∈ step.guards := by
    rw [step.guards_eq]
    exact List.mem_map_of_mem hch
  rw [← h.asks_iff hsplit hnone hn]
  exact hg.passes_iff h.numbered (h.usable n (h.arranges.mem_nodes hc hn)) h.addressable.symbols
    (h.addressable.code step hstep _ hguard) hlength

/-! ## Winners -/

theorem name_number {id : Bytes} (hid : id ∈ c.table) : c.name (c.number id) = id := by
  unfold name number
  rw [List.getElem?_idxOf hid]
  rfl

theorem idOf_number (h : c.CarriesOut r k cs b) (hcontest : contest ∈ cs) {n : FlatNode}
    (hn : n ∈ contest.members) :
    (c.situation b attributes inputs verbose comparators).idOf (c.number n.id) = n.id := by
  have hid : ∀ i, b.nodeId? i = c.table[i]? := by
    intro i
    rw [← h.nodes, List.getElem?_map]
    rfl
  change (b.nodeId? (c.number n.id)).getD [] = n.id
  rw [hid, number, List.getElem?_idxOf (h.mem_table_of_has hcontest ⟨n, hn, rfl⟩)]
  rfl

/-- The step of a contest of which the plan has all rules can be run. -/
theorem runnable_of_decides (hdecides : c.Decides contest step b.symbols)
    (hlength : c.table.length = b.nodes.length) (harranges : k.Arranges cs)
    (hcontest : contest ∈ cs) (htable : ∀ id, contest.Has id → id ∈ c.table) :
    step.Runnable b := by
  refine ⟨fun ch hch => ?_, fun i hcycle => ?_⟩
  · obtain ⟨n, hn, hnumber, -⟩ := forall₂_of_mem_left hdecides.choices.flip hch
    rw [hnumber, ← hlength]
    exact List.idxOf_lt_length_of_mem (htable n.id ⟨n, hn, rfl⟩)
  · refine harranges.acyclic contest hcontest (c.name i)
      (Relation.TransGen.lift c.name (fun x y hxy => ?_) i i hcycle)
    obtain ⟨-, p, hp, hnumbers⟩ := (hdecides.dominance (x, y)).1 hxy
    obtain ⟨hwinner, hloser, -⟩ := (harranges.dominates contest hcontest p.1 p.2).1 hp
    obtain ⟨rfl, rfl⟩ := Prod.mk.inj hnumbers
    change (c.name (c.number p.1), c.name (c.number p.2)) ∈ contest.dominates
    rw [name_number (htable _ hwinner), name_number (htable _ hloser)]
    exact hp

/-- The steps of such a plan can be run. -/
theorem runnable (h : c.CarriesOut r k cs b) (hcontest : contest ∈ cs)
    (hdecides : c.Decides contest step b.symbols) : step.Runnable b :=
  runnable_of_decides hdecides h.length_table h.arranges hcontest fun _ hid =>
    h.mem_table_of_has hcontest hid

/-- The only rule of a contest wins exactly if it is eligible. -/
theorem winner_rel_single (h : c.CarriesOut r k cs b) (hsplit : cs = before ++ contest :: after)
    {n : FlatNode} (hmembers : contest.members = [n]) {g : Guard}
    (hiff : (c.situation b attributes inputs verbose comparators).Passes fired g ↔
      k.Eligible ⟨attributes, inputs, .empty, []⟩ (c.Fired fired) n)
    (beats : FlatNode → FlatNode → Bool) :
    Option.Rel (c.Names contest)
      (pick contest.dominatesIn beats
        (contest.eligible k ⟨attributes, inputs, .empty, []⟩ (c.Fired fired)))
      (if (c.situation b attributes inputs verbose comparators).Passes fired g then
        some ⟨c.number n.id, (c.situation b attributes inputs verbose comparators).idOf
          (c.number n.id), n.outcome⟩ else none) := by
  classical
  have hcontest : contest ∈ cs := by simp [hsplit]
  have hn : n ∈ contest.members := by simp [hmembers]
  have hfree : contest.dominatesIn n n = false := by
    have hacyclic := h.arranges.acyclic contest hcontest n.id
    simpa [Contest.dominatesIn] using fun hloop => hacyclic (.single hloop)
  unfold Contest.eligible
  rw [hmembers, List.filter_singleton]
  by_cases hpass : (c.situation b attributes inputs verbose comparators).Passes fired g
  · rw [if_pos hpass, decide_eq_true (hiff.1 hpass)]
    have hpick : pick contest.dominatesIn beats [n] = some n := by simp [pick, hfree]
    rw [cond_true, hpick]
    exact .some ⟨hn, rfl, h.idOf_number hcontest hn, rfl⟩
  · rw [if_neg hpass, decide_eq_false (fun he => hpass (hiff.2 he))]
    exact .none

/-- The branches of a selector in terms of the rules that they offer. -/
theorem exists_branches {branches : List Branch} (hnodup : contest.members.Nodup)
    (hoffers : List.Forall₂ (fun n b' => c.Offers n b' b.symbols) contest.members branches) :
    ∃ f : FlatNode → Branch, branches = contest.members.map f ∧
      ∀ n ∈ contest.members, c.Offers n (f n) b.symbols := by
  generalize contest.members = members at hnodup hoffers
  induction hoffers with
  | nil => exact ⟨FlatNode.asBranch, rfl, fun _ hn => absurd hn List.not_mem_nil⟩
  | @cons n b' members branches hoffer _ ih =>
    obtain ⟨hnew, hnodup⟩ := List.nodup_cons.1 hnodup
    obtain ⟨f, hf, hoffers⟩ := ih hnodup
    have hother : ∀ m ∈ members, Function.update f n b' m = f m := fun m hm =>
      Function.update_of_ne (fun hsame : m = n => hnew (hsame ▸ hm)) ..
    refine ⟨Function.update f n b', ?_, fun m hm => ?_⟩
    · rw [List.map_cons, Function.update_self, hf, List.map_congr_left hother]
    · rcases List.mem_cons.1 hm with rfl | hm
      · rwa [Function.update_self]
      · rw [hother m hm]
        exact hoffers m hm

/-- The candidates of a selector are those of the eligible rules. -/
theorem candidates_offered (h : c.CarriesOut r k cs b) (hcontest : contest ∈ cs)
    {f : FlatNode → Branch} {sel : Selector} (hbranches : sel.branches = contest.members.map f)
    (hoffers : ∀ n ∈ contest.members, c.Offers n (f n) b.symbols)
    (hpasses : ∀ n ∈ contest.members,
      ((c.situation b attributes inputs verbose comparators).Passes fired (f n).guard ↔
        k.Eligible ⟨attributes, inputs, .empty, []⟩ (c.Fired fired) n)) :
    List.Forall₂ (contest.Offered f)
      (contest.eligible k ⟨attributes, inputs, .empty, []⟩ (c.Fired fired))
      ((c.situation b attributes inputs verbose comparators).candidates fired sel) := by
  classical
  have hall : List.Forall₂ (fun (n : FlatNode) (x : Branch × Nat) =>
      contest.members[x.2]? = some n ∧ x.1 = f n) contest.members sel.branches.zipIdx := by
    rw [hbranches, List.forall₂_iff_get]
    refine ⟨by simp, fun i hi hi' => ?_⟩
    simp [List.getElem?_eq_getElem hi]
  unfold Contest.eligible Situation.candidates
  rw [List.forall₂_map_right_iff]
  refine (List.rel_filter (fun n x hx => ?_) hall).imp fun n x hx => ⟨hx.1, hx.2, ?_⟩
  · dsimp only
    rw [hx.2]
    simpa using (hpasses n (List.mem_of_getElem? hx.1)).symm
  · have hn := List.mem_of_getElem? hx.1
    change (c.situation b attributes inputs verbose comparators).idOf x.1.node = n.id
    rw [hx.2, (hoffers n hn).node]
    exact h.idOf_number hcontest hn

/-- A rule dominates another one exactly if its candidate dominates that of the other one. -/
theorem dominatesIn_offered (h : c.CarriesOut r k cs b) (hcontest : contest ∈ cs)
    {f : FlatNode → Branch} {sel : Selector} (hdominates : sel.dominates = c.pairs contest)
    (hoffers : ∀ n ∈ contest.members, c.Offers n (f n) b.symbols) {n m : FlatNode}
    {d d' : Candidate} (hn : contest.Offered f n d) (hm : contest.Offered f m d') :
    contest.dominatesIn n m = sel.dominatesIn d d' := by
  rw [Bool.eq_iff_iff]
  simp only [Contest.dominatesIn, Selector.dominatesIn, Bool.and_eq_true, bne_iff_ne,
    List.contains_iff_mem, hdominates, mem_pairs_iff, hn.branch, hm.branch,
    (hoffers n hn.mem).node, (hoffers m hm.mem).node, Prod.mk.injEq]
  constructor
  · intro hdom
    refine ⟨fun hindex => ?_, (n.id, m.id), hdom, rfl, rfl⟩
    -- A rule does not dominate itself, so the candidates are at different places.
    have hsame := Option.some.inj (hn.place.symm.trans (hindex ▸ hm.place))
    exact h.arranges.acyclic contest hcontest n.id (.single (hsame ▸ hdom))
  · rintro ⟨-, ⟨x, y⟩, hdom, hx, hy⟩
    obtain ⟨hwinner, hloser, -⟩ := (h.arranges.dominates contest hcontest x y).1 hdom
    rw [← (List.idxOf_inj (h.mem_table_of_has hcontest hwinner)).1 hx,
      ← (List.idxOf_inj (h.mem_table_of_has hcontest hloser)).1 hy]
    exact hdom

/-- The winner of a selector is the rule that is picked of the eligible ones. -/
theorem winner_rel_selector (h : c.CarriesOut r k cs b)
    (hsplit : cs = before ++ contest :: after) {f : FlatNode → Branch} {sel : Selector}
    (hbranches : sel.branches = contest.members.map f)
    (hdominates : sel.dominates = c.pairs contest)
    (hoffers : ∀ n ∈ contest.members, c.Offers n (f n) b.symbols)
    (hpasses : ∀ n ∈ contest.members,
      ((c.situation b attributes inputs verbose comparators).Passes fired (f n).guard ↔
        k.Eligible ⟨attributes, inputs, .empty, []⟩ (c.Fired fired) n))
    {beats : FlatNode → FlatNode → Bool}
    (hbeats : ∀ n ∈ contest.members, ∀ m ∈ contest.members,
      beats n m = (sel.ranking comparators).1.beats (f n) (f m)) :
    Option.Rel (c.Names contest)
      (pick contest.dominatesIn beats
        (contest.eligible k ⟨attributes, inputs, .empty, []⟩ (c.Fired fired)))
      ((c.situation b attributes inputs verbose comparators).winner? fired (.selector sel)) := by
  have hcontest : contest ∈ cs := by simp [hsplit]
  have hpick : Option.Rel (contest.Offered f)
      (pick contest.dominatesIn beats
        (contest.eligible k ⟨attributes, inputs, .empty, []⟩ (c.Fired fired)))
      (pick sel.dominatesIn (sel.beats comparators)
        ((c.situation b attributes inputs verbose comparators).candidates fired sel)) := by
    refine pick_rel (h.candidates_offered hcontest hbranches hoffers hpasses)
      (fun n d m d' hn hm => h.dominatesIn_offered hcontest hdominates hoffers hn hm)
      fun n d m d' hn hm => ?_
    rw [hbeats n hn.mem m hm.mem, Selector.beats, hn.branch, hm.branch]
  change Option.Rel _ _ ((pick sel.dominatesIn (sel.beats comparators)
    ((c.situation b attributes inputs verbose comparators).candidates fired sel)).map _)
  generalize pick contest.dominatesIn beats _ = picked at hpick ⊢
  generalize pick sel.dominatesIn _ _ = winner at hpick ⊢
  cases hpick with
  | none => exact .none
  | @some n d hoffered =>
    have hoffer := hoffers n hoffered.mem
    exact .some ⟨hoffered.mem, (congrArg Branch.node hoffered.branch).trans hoffer.node,
      hoffered.id, (congrArg Branch.outcome hoffered.branch).trans hoffer.outcome⟩

/-- The winner of a step is the rule that is picked of the eligible ones of its contest. -/
theorem winner_rel (h : c.CarriesOut r k cs b) (attributes inputs : AttributeSet) (verbose : Bool)
    (comparators : Comparators) (hsplit : cs = before ++ contest :: after) (hstep : step ∈ b.steps)
    (hplans : c.Plans r.policy r.comparator contest b.symbols step)
    (hlength : fired.length = c.table.length)
    (hnone : ∀ id, contest.Has id → ¬c.Fired fired id) :
    ∃ beats, (comparators.Impartial → beats = r.beats comparators) ∧
      Option.Rel (c.Names contest)
        (pick contest.dominatesIn beats
          (contest.eligible k ⟨attributes, inputs, .empty, []⟩ (c.Fired fired)))
        ((c.situation b attributes inputs verbose comparators).winner? fired step) := by
  have hpasses : ∀ n ∈ contest.members, ∀ ch ∈ step.choices, c.Guards n ch.2 b.symbols →
      ((c.situation b attributes inputs verbose comparators).Passes fired ch.2 ↔
        k.Eligible ⟨attributes, inputs, .empty, []⟩ (c.Fired fired) n) := fun n hn ch hch hg =>
    h.passes_iff_eligible hsplit hstep hlength hnone hn hch hg
  cases hplans with
  | @sequential n g hmembers houtcome hg =>
    have hiff := hpasses n (by simp [hmembers]) (c.number n.id, g) (List.mem_singleton.2 rfl) hg
    refine ⟨r.beats comparators, fun _ => rfl, ?_⟩
    have hrel := h.winner_rel_single hsplit hmembers hiff (r.beats comparators)
    rwa [houtcome] at hrel
  | @task n g o hmembers houtcome hg =>
    have hiff := hpasses n (by simp [hmembers]) (c.number n.id, g) (List.mem_singleton.2 rfl) hg
    refine ⟨r.beats comparators, fun _ => rfl, ?_⟩
    have hrel := h.winner_rel_single hsplit hmembers hiff (r.beats comparators)
    rwa [houtcome] at hrel
  | @selector branches _ hoffers =>
    have hcontest : contest ∈ cs := by simp [hsplit]
    obtain ⟨f, rfl, hoffer⟩ := exists_branches (h.arranges.nodup_members h.tidy hcontest) hoffers
    have hguards := fun n hn => hpasses n hn ((f n).node, (f n).guard)
      (List.mem_map.2 ⟨f n, List.mem_map_of_mem hn, rfl⟩) (hoffer n hn).guards
    let ranking := ((Selector.mk [] r.policy r.comparator [] []).ranking comparators).1
    by_cases himpartial : comparators.Impartial
    · refine ⟨r.beats comparators, fun _ => rfl,
        h.winner_rel_selector hsplit rfl rfl hoffer hguards fun n hn m hm => ?_⟩
      obtain ⟨hn, hcn, hcn'⟩ := (hoffer n hn).alike
      obtain ⟨hm, hcm, hcm'⟩ := (hoffer m hm).alike
      exact Selector.beats_congr himpartial hn.symm hm.symm ⟨hcn', hcn, hcm', hcm⟩
    · exact ⟨fun n m => ranking.beats (f n) (f m), fun himpartial' => absurd himpartial' himpartial,
        h.winner_rel_selector hsplit rfl rfl hoffer hguards fun _ _ _ _ => rfl⟩

end EmissionContext.CarriesOut

/-! ## Runs -/

namespace EmissionContext

variable {c : EmissionContext} {r : Revision} {k : FlatGraph} {cs before after : List Contest}
variable {contest : Contest} {step : Step} {b : Blueprint} {p p' : Progress}
variable {attributes inputs : AttributeSet} {verbose : Bool} {comparators : Comparators}

/-- A step stays unresolved where its contest does. -/
theorem Plans.opens {symbols : SymbolTable} {fires : Bytes → Prop}
    (h : c.Plans r.policy r.comparator contest symbols step)
    (hnone : ∀ n ∈ contest.members, ¬fires n.id) (index : Nat) :
    step.opens index = contest.opens fires index := by
  classical
  unfold Contest.opens
  cases h with
  | sequential members => simp [members, Step.opens]
  | task members => simp [members, Step.opens]
  | selector several => exact (if_pos ⟨several, hnone⟩).symm

/-- How far a run has come between two steps: the contests that are done are settled, nothing of
the others has fired, and what was decided and what is unresolved is what the contests that are
done come to. -/
structure Stage (c : EmissionContext) (r : Revision) (comparators : Comparators) (k : FlatGraph)
    (e : Evidence) (done todo : List Contest) (p : Progress) : Prop where
  length : p.fired.length = c.table.length
  settled : ∀ d ∈ done, ∃ beats, (comparators.Impartial → beats = r.beats comparators) ∧
    d.Settled k e beats (c.Fired p.fired)
  todo : ∀ d ∈ todo, ∀ id, d.Has id → ¬c.Fired p.fired id
  decisions : p.decisions = done.zipIdx.flatMap fun d => d.1.decisions (c.Fired p.fired) d.2
  unresolved : p.unresolved = done.zipIdx.flatMap fun d => d.1.opens (c.Fired p.fired) d.2

namespace CarriesOut

/-- The rule of a contest that is picked fires and decides, and nothing else changes. -/
theorem advance_of_takes (h : c.CarriesOut r k cs b) (hcontest : contest ∈ cs)
    (hplans : c.Plans r.policy r.comparator contest b.symbols step)
    (hlength : p.fired.length = c.table.length)
    (hnone : ∀ id, contest.Has id → ¬c.Fired p.fired id) {picked : Option FlatNode}
    {winner : Option Winner} (hrel : Option.Rel (c.Names contest) picked winner) {index : Nat}
    (htakes : p.Takes p' index step winner) :
    p'.fired.length = c.table.length ∧
    (∀ id, ¬contest.Has id → (c.Fired p'.fired id ↔ c.Fired p.fired id)) ∧
    (∀ n ∈ contest.members, (c.Fired p'.fired n.id ↔ picked = some n)) ∧
    p'.decisions = p.decisions ++ contest.decisions (c.Fired p'.fired) index ∧
    p'.unresolved = p.unresolved ++ contest.opens (c.Fired p'.fired) index := by
  have hnot : ∀ n ∈ contest.members, ¬c.Fired p.fired n.id := fun n hn => hnone n.id ⟨n, hn, rfl⟩
  cases htakes with
  | idle hgains =>
    cases hrel
    rw [hgains.fired, hgains.decisions, hgains.unresolved, hplans.opens hnot,
      Contest.decisions_of_none hnot]
    exact ⟨hlength, fun _ _ => Iff.rfl, fun n hn => by simp [hnot n hn], rfl, rfl⟩
  | won w hgains =>
    cases hrel with
    | @some n _ hw =>
      have hhas : contest.Has n.id := ⟨n, hw.mem, rfl⟩
      have hafter : ∀ id, c.Fired p'.fired id ↔ id = n.id ∨ c.Fired p.fired id := fun id => by
        rw [hgains.fired, hw.node]
        exact h.fired_set hlength (h.mem_table_of_has hcontest hhas)
      have hown : ∀ m ∈ contest.members, (c.Fired p'.fired m.id ↔ m = n) := by
        intro m hm
        rw [hafter, or_iff_left (hnot m hm)]
        exact ⟨h.eq_of_id hcontest hm hw.mem, fun hsame => by rw [hsame]⟩
      refine ⟨?_, fun id hid => ?_, fun m hm => ?_, ?_, ?_⟩
      · rw [hgains.fired, List.length_set]
        exact hlength
      · rw [hafter, or_iff_right]
        rintro rfl
        exact hid hhas
      · rw [hown m hm, Option.some.injEq]
        exact eq_comm
      · rw [hgains.decisions, Contest.decisions_of_one (h.arranges.nodup_members h.tidy hcontest)
          hw.mem hown, Winner.decisions, hw.id, hw.outcome]
        rfl
      · rw [hgains.unresolved, Contest.opens_of_one hw.mem ((hown n hw.mem).2 rfl)]

/-- A step takes a run from one stage to the next. -/
theorem stage_of_takes (h : c.CarriesOut r k cs b) (hsplit : cs = before ++ contest :: after)
    (hstep : step ∈ b.steps) (hplans : c.Plans r.policy r.comparator contest b.symbols step)
    (hstage : Stage c r comparators k ⟨attributes, inputs, .empty, []⟩ before (contest :: after) p)
    (htakes : p.Takes p' before.length step
      ((c.situation b attributes inputs verbose comparators).winner? p.fired step)) :
    Stage c r comparators k ⟨attributes, inputs, .empty, []⟩ (before ++ [contest]) after p' := by
  have hcontest : contest ∈ cs := by simp [hsplit]
  have hnone := hstage.todo contest (List.mem_cons_self ..)
  obtain ⟨beats, himpartial, hrel⟩ := h.winner_rel attributes inputs verbose comparators hsplit
    hstep hplans hstage.length hnone
  obtain ⟨hlength, houtside, hown, hdecisions, hunresolved⟩ :=
    h.advance_of_takes hcontest hplans hstage.length hnone hrel htakes
  have hapart := fun id (hid : contest.Has id) => h.arranges.apart h.tidy hsplit hid
  have hdone : ∀ d ∈ before, ∀ id, d.Has id → (c.Fired p.fired id ↔ c.Fired p'.fired id) :=
    fun d hd id hid => (houtside id fun hself => (hapart id hself).1 d hd hid).symm
  have hmembers : ∀ d ∈ before.zipIdx, ∀ n ∈ d.1.members,
      (c.Fired p.fired n.id ↔ c.Fired p'.fired n.id) := fun d hd n hn =>
    hdone d.1 (List.fst_mem_of_mem_zipIdx hd) n.id ⟨n, hn, rfl⟩
  refine ⟨hlength, fun d hd => ?_, fun d hd id hid => ?_, ?_, ?_⟩
  · rcases List.mem_append.1 hd with hd | hd
    · obtain ⟨beats', himpartial', hsettled⟩ := hstage.settled d hd
      obtain ⟨earlier, later, rfl⟩ := List.append_of_mem hd
      have hsplit' : cs = earlier ++ d :: (later ++ contest :: after) := by
        rw [hsplit, List.append_assoc, List.cons_append]
      refine ⟨beats', himpartial',
        h.arranges.settled_congr hsplit' (fun d' hd' id hid => hdone d' ?_ id hid) hsettled⟩
      rw [List.mem_append, List.mem_singleton] at hd'
      simp only [List.mem_append, List.mem_cons]
      exact hd'.imp_right .inl
    · rw [List.mem_singleton.1 hd]
      refine ⟨beats, himpartial, fun n hn => ?_⟩
      -- Eligibility looks at earlier contests only, and those are as they were.
      rw [hown n hn, contest.eligible_congr fun m hm =>
        h.arranges.eligible_congr hsplit (fun d hd id hid => (hdone d hd id hid)) hm]
  · rw [houtside id fun hself => (hapart id hself).2 d hd hid]
    exact hstage.todo d (List.mem_cons_of_mem _ hd) id hid
  · rw [hdecisions, hstage.decisions, List.zipIdx_append, List.flatMap_append,
      List.flatMap_congr fun d hd => d.1.decisions_congr (hmembers d hd) d.2]
    simp
  · rw [hunresolved, hstage.unresolved, List.zipIdx_append, List.flatMap_append,
      List.flatMap_congr fun d hd => d.1.opens_congr (hmembers d hd) d.2]
    simp

/-- Steps are run to the end from any stage on. -/
theorem exists_runSteps_of_stage (h : c.CarriesOut r k cs b) {todo : List Contest}
    {steps : List Step} (hsplit : cs = before ++ todo)
    (hplans : List.Forall₂ (fun contest step =>
      c.Plans r.policy r.comparator contest b.symbols step) todo steps)
    (hsteps : ∀ step ∈ steps, step ∈ b.steps)
    (hstage : Stage c r comparators k ⟨attributes, inputs, .empty, []⟩ before todo p) :
    ∃ p', (c.situation b attributes inputs verbose comparators).runSteps
        (steps.zipIdx before.length) p = .ok p' ∧
      Stage c r comparators k ⟨attributes, inputs, .empty, []⟩ cs [] p' := by
  induction hplans generalizing before p with
  | nil =>
    rw [List.append_nil] at hsplit
    exact ⟨p, rfl, hsplit ▸ hstage⟩
  | @cons contest step todo steps hplan _ ih =>
    have hcontest : contest ∈ cs := by simp [hsplit]
    obtain ⟨q, hrun, htakes⟩ := (c.situation b attributes inputs verbose comparators).exists_runStep
      before.length (h.runnable hcontest hplan.decides) p
    have hnext := h.stage_of_takes hsplit (hsteps _ (List.mem_cons_self ..)) hplan hstage htakes
    obtain ⟨p', hrest, hstage'⟩ := ih (by rw [hsplit, List.append_assoc]; rfl)
      (fun x hx => hsteps x (List.mem_cons_of_mem _ hx)) hnext
    refine ⟨p', ?_, hstage'⟩
    rw [List.length_append, List.length_singleton] at hrest
    rw [List.zipIdx_cons, Situation.runSteps, hrun]
    exact hrest

/-- Running a plan settles every contest. -/
theorem exists_runSteps (h : c.CarriesOut r k cs b) (attributes inputs : AttributeSet)
    (verbose : Bool) (comparators : Comparators) :
    ∃ p, (c.situation b attributes inputs verbose comparators).runSteps b.steps.zipIdx
        (.start b) = .ok p ∧
      Stage c r comparators k ⟨attributes, inputs, .empty, []⟩ cs [] p := by
  have hstart : Stage c r comparators k ⟨attributes, inputs, .empty, []⟩ [] cs (.start b) := by
    refine ⟨?_, fun _ hd => absurd hd List.not_mem_nil, fun d _ id _ hfired => ?_, rfl, rfl⟩
    · rw [h.length_table]
      exact List.length_map _
    · have hmem := List.mem_of_getElem? hfired
      simp [Progress.start] at hmem
  exact h.exists_runSteps_of_stage (List.nil_append cs).symm h.plans (fun _ hstep => hstep) hstart

end CarriesOut
end EmissionContext
end DecisionEngine
