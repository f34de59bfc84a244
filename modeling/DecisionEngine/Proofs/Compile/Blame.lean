import DecisionEngine.Compile.Compiler
/-!
# Who finds fault with a node by itself

Only normal form judges nodes one by one: the stages after it find fault with what nodes refer to,
with expressions, guardrails and orders, and have codes of their own for that.  So what a
compilation says about ids can be read off normal form, and where every node has an id of its own
it says nothing about them.

* `Findings.All` — a property of all that was found; `Revision.all_compile` carries it through.
* `Diagnostic.Elsewhere` — a diagnostic that does not judge a node by itself.
* `Revision.mem_normal_of_compile` — where the other diagnostics come from.
* `Revision.not_blamesId` — nodes with ids of their own are not blamed for them.
-/

namespace DecisionEngine

/-! ## Properties of all findings -/

namespace Findings

/-- All that was found has a property. -/
def All (P : Diagnostic → Prop) (f : Findings) : Prop := ∀ d ∈ f.errors ++ f.warnings, P d

variable {P : Diagnostic → Prop} {f g : Findings} {ds : List Diagnostic}

theorem All.also (hf : f.All P) (hg : g.All P) : (f.also g).All P := by
  simp only [All, Findings.also, List.mem_append] at *
  rintro d ((hd | hd) | hd | hd)
  · exact hf d (.inl hd)
  · exact hg d (.inl hd)
  · exact hf d (.inr hd)
  · exact hg d (.inr hd)

theorem all_clear : clear.All P := by
  simp [All, clear]

theorem all_ofErrors : (ofErrors ds).All P ↔ ∀ d ∈ ds, P d := by
  simp [All, ofErrors]

theorem all_ofWarnings : (ofWarnings ds).All P ↔ ∀ d ∈ ds, P d := by
  simp [All, ofWarnings]

theorem all_mk {errors warnings : List Diagnostic} :
    (Findings.mk errors warnings).All P ↔ (∀ d ∈ errors, P d) ∧ ∀ d ∈ warnings, P d := by
  simp only [All, List.mem_append]
  exact ⟨fun h => ⟨fun d hd => h d (.inl hd), fun d hd => h d (.inr hd)⟩,
    fun h d hd => hd.elim (h.1 d) (h.2 d)⟩

theorem All.strict (h : f.All P) : f.strict.All P := by
  simpa [All, Findings.strict] using h

theorem All.finish (h : f.All P) (o : CompilerOptions) (figures : CompileFigures)
    (b : Option Blueprint) : ∀ d ∈ (Compilation.finish o figures f b).errors ++
      (Compilation.finish o figures f b).warnings, P d := by
  unfold Compilation.finish
  dsimp only
  split
  · exact h.strict
  · exact h

end Findings

/-- A property of all that the stages find holds of all that a compilation says. -/
theorem Revision.all_compile {P : Diagnostic → Prop} {r : Revision}
    (hnormal : (NormalGraph.ofRevision r).2.All P)
    (hlint : ((NormalGraph.ofRevision r).1.lint r.guardrails).All P)
    (hpruning : ∀ g drop, (FlatGraph.ofNormal g drop).2.1.All P)
    (hordering : ∀ g : FlatGraph, g.ordered.2.All P)
    (hsettling : ∀ (g : FlatGraph) units, (g.contests units).2.All P)
    (hemission : ∀ bits g contests, (r.emit bits g contests).2.All P) (o : CompilerOptions) :
    ∀ d ∈ (r.compile o).errors ++ (r.compile o).warnings, P d := by
  have hchecked := hnormal.also hlint
  have hordered := fun g drop k => (hchecked.also (hpruning g drop)).also (hordering k)
  have hsettled := fun g drop k k' units => (hordered g drop k).also (hsettling k' units)
  unfold compile
  dsimp only
  split
  · exact hnormal.finish _ _ _
  · split
    · exact hchecked.finish _ _ _
    · split
      · exact (hordered _ _ _).finish _ _ _
      · split
        · exact (hsettled _ _ _ _ _).finish _ _ _
        · exact ((hsettled _ _ _ _ _).also (hemission _ _ _)).finish _ _ _

/-! ## Stages that judge other things -/

/-- A diagnostic that does not judge a node by itself. -/
def Diagnostic.Elsewhere (d : Diagnostic) : Prop := d.code ≠ .duplicateNode ∧ d.code ≠ .invalidNode

open Diagnostic (Elsewhere)

/-- A report that is made or not judges other things if it does where it is made. -/
theorem elsewhere_ite {c : Prop} [Decidable c] {ds es : List Diagnostic}
    (hds : ∀ d ∈ ds, d.Elsewhere) (hes : ∀ d ∈ es, d.Elsewhere) :
    ∀ d ∈ if c then ds else es, d.Elsewhere := by
  split
  · exact hds
  · exact hes

theorem elsewhere_nil : ∀ d ∈ ([] : List Diagnostic), d.Elsewhere := fun _ h =>
  absurd h List.not_mem_nil

theorem elsewhere_singleton {d : Diagnostic} (h : d.Elsewhere) : ∀ e ∈ [d], e.Elsewhere :=
  fun _ he => List.mem_singleton.1 he ▸ h

theorem elsewhere_map {α : Type} {xs : List α} {f : α → Diagnostic} (h : ∀ x, (f x).Elsewhere) :
    ∀ d ∈ xs.map f, d.Elsewhere := by
  rintro _ hd
  obtain ⟨x, -, rfl⟩ := List.mem_map.1 hd
  exact h x

theorem elsewhere_flatMap {α : Type} {xs : List α} {f : α → List Diagnostic}
    (h : ∀ x, ∀ d ∈ f x, d.Elsewhere) : ∀ d ∈ xs.flatMap f, d.Elsewhere := by
  rintro d hd
  obtain ⟨x, -, hx⟩ := List.mem_flatMap.1 hd
  exact h x d hx

namespace NormalGraph

theorem elsewhere_badExpressions (g : NormalGraph) : ∀ d ∈ g.badExpressions, d.Elsewhere := by
  refine elsewhere_flatMap fun n => elsewhere_ite elsewhere_nil ?_
  split
  · exact elsewhere_nil
  · exact elsewhere_singleton ⟨nofun, nofun⟩

theorem elsewhere_guardrailErrors (g : NormalGraph) (r : Guardrail) :
    ∀ d ∈ g.guardrailErrors r, d.Elsewhere := by
  have hcomplaint : ∀ before behind, ∀ d ∈ [guardrailComplaint before r.id behind], d.Elsewhere :=
    fun _ _ => elsewhere_singleton ⟨nofun, nofun⟩
  refine List.forall_mem_append.2 ⟨List.forall_mem_append.2 ⟨List.forall_mem_append.2
    ⟨elsewhere_ite (hcomplaint _ _) elsewhere_nil, elsewhere_ite elsewhere_nil ?_⟩,
    elsewhere_ite (hcomplaint _ _) elsewhere_nil⟩, elsewhere_ite ?_ elsewhere_nil⟩
  · split
    · exact elsewhere_nil
    · exact hcomplaint _ _
  · exact List.forall_mem_append.2 ⟨elsewhere_ite (hcomplaint _ _) elsewhere_nil,
      elsewhere_ite elsewhere_nil (elsewhere_singleton ⟨nofun, nofun⟩)⟩

theorem elsewhere_badGuardrails (g : NormalGraph) (seen : List Bytes) (rs : List Guardrail) :
    ∀ d ∈ g.badGuardrails seen rs, d.Elsewhere := by
  induction rs generalizing seen with
  | nil => exact elsewhere_nil
  | cons r rest ih =>
    unfold badGuardrails
    refine elsewhere_ite (List.forall_mem_cons.2 ⟨⟨nofun, nofun⟩, ih seen⟩) (elsewhere_ite ?_ ?_)
    · exact List.forall_mem_cons.2 ⟨⟨nofun, nofun⟩, ih seen⟩
    · exact List.forall_mem_append.2 ⟨g.elsewhere_guardrailErrors r, ih _⟩

theorem elsewhere_references (g : NormalGraph) : g.references.All Elsewhere := by
  refine Findings.all_mk.2 ⟨List.forall_mem_append.2 ⟨?_, elsewhere_flatMap fun n => ?_⟩,
    elsewhere_flatMap fun n => ?_⟩
  · exact elsewhere_ite elsewhere_nil (elsewhere_singleton ⟨nofun, nofun⟩)
  · exact elsewhere_ite elsewhere_nil (elsewhere_singleton ⟨nofun, nofun⟩)
  · exact elsewhere_ite (elsewhere_singleton ⟨nofun, nofun⟩) elsewhere_nil

theorem elsewhere_lint (g : NormalGraph) (rs : List Guardrail) :
    (g.lint rs).All Elsewhere := by
  have hmembership : ∀ d ∈ g.membershipCycles, d.Elsewhere := elsewhere_map fun _ => ⟨nofun, nofun⟩
  have hordering : (Findings.mk g.orderingCycles g.ignoredSelfEdges).All Elsewhere :=
    Findings.all_mk.2 ⟨elsewhere_map fun _ => ⟨nofun, nofun⟩, elsewhere_map fun _ => ⟨nofun, nofun⟩⟩
  have hentry : ∀ d ∈ g.missingEntry, d.Elsewhere :=
    elsewhere_ite elsewhere_nil (elsewhere_singleton ⟨nofun, nofun⟩)
  have hfirst := g.elsewhere_references.also (Findings.all_ofErrors.2 hmembership)
  refine (hfirst.also ?_).also (Findings.all_ofErrors.2 ?_)
  · split
    · exact Findings.all_clear
    · exact hordering
  · exact List.forall_mem_append.2 ⟨List.forall_mem_append.2 ⟨hentry, g.elsewhere_badExpressions⟩,
      g.elsewhere_badGuardrails [] rs⟩

end NormalGraph

namespace FlatGraph

theorem elsewhere_ofNormal (g : NormalGraph) (drop : Bool) :
    (FlatGraph.ofNormal g drop).2.1.All Elsewhere := by
  refine Findings.all_ofWarnings.2 (List.forall_mem_append.2 ⟨?_, fun d hd => ?_⟩)
  · exact elsewhere_ite elsewhere_nil (elsewhere_singleton ⟨nofun, nofun⟩)
  · obtain ⟨id, -, hid⟩ := List.mem_filterMap.1 hd
    obtain ⟨h, -, rfl⟩ := Option.map_eq_some_iff.1 hid
    exact ⟨nofun, nofun⟩

theorem elsewhere_ordered (g : FlatGraph) : g.ordered.2.All Elsewhere := by
  have hwarnings : ∀ es : List Edge, ∀ d ∈ es.map impliedNeutralization, d.Elsewhere := fun _ =>
    elsewhere_map fun _ => ⟨nofun, nofun⟩
  unfold ordered
  dsimp only
  split
  · exact Findings.all_mk.2
      ⟨elsewhere_ite elsewhere_nil (elsewhere_singleton ⟨nofun, nofun⟩), hwarnings _⟩
  · split
    · exact Findings.all_ofWarnings.2 (hwarnings _)
    · exact Findings.all_mk.2 ⟨elsewhere_singleton ⟨nofun, nofun⟩, hwarnings _⟩

theorem elsewhere_contests (g : FlatGraph) (units : List PlanUnit) :
    (g.contests units).2.All Elsewhere :=
  Findings.all_mk.2 ⟨elsewhere_map fun _ => ⟨nofun, nofun⟩, elsewhere_map fun _ => ⟨nofun, nofun⟩⟩

end FlatGraph

namespace Revision

variable {r : Revision}

theorem elsewhere_emit (r : Revision) (bits : Nat) (g : FlatGraph) (contests : List Contest) :
    (r.emit bits g contests).2.All Elsewhere :=
  Findings.all_ofWarnings.2 (elsewhere_map fun _ => ⟨nofun, nofun⟩)

/-- What a compilation says about nodes by themselves comes from normal form. -/
theorem mem_normal_of_compile (o : CompilerOptions) {d : Diagnostic}
    (hd : d ∈ (r.compile o).errors ++ (r.compile o).warnings) (hnode : ¬d.Elsewhere) :
    d ∈ (NormalGraph.ofRevision r).2.errors := by
  have helsewhere : ∀ {f : Findings}, f.All Elsewhere →
      f.All fun d => ¬d.Elsewhere → d ∈ (NormalGraph.ofRevision r).2.errors :=
    fun h d hd hnode => absurd (h d hd) hnode
  refine all_compile (P := fun d => ¬d.Elsewhere → d ∈ (NormalGraph.ofRevision r).2.errors)
    (Findings.all_ofErrors.2 fun d hd _ => hd)
    (helsewhere (NormalGraph.elsewhere_lint _ _))
    (fun g drop => helsewhere (FlatGraph.elsewhere_ofNormal g drop))
    (fun g => helsewhere g.elsewhere_ordered)
    (fun g units => helsewhere (g.elsewhere_contests units))
    (fun bits g contests => helsewhere (r.elsewhere_emit bits g contests)) o d hd hnode

end Revision

/-! ## Ids -/

/-- A diagnostic that blames a node for its id: that it is declared twice, or that it is empty. -/
def Diagnostic.BlamesId (d : Diagnostic) : Prop :=
  d.code = .duplicateNode ∨ ∃ position, d = ⟨.invalidNode,
    utf8 "node declared at position " ++ Bytes.decimal position ++ utf8 " has an empty id", [], []⟩

namespace NormalGraph

/-- Nodes with ids of their own are not blamed for them when they are taken in. -/
theorem not_blamesId_collect (declared : List (Node × Nat)) (known : List NormalNode)
    (hnamed : ∀ p ∈ declared, p.1.id ≠ []) (hdistinct : (declared.map (·.1.id)).Nodup)
    (hnew : ∀ p ∈ declared, ∀ m ∈ known, m.node.id ≠ p.1.id) :
    ∀ d ∈ (collect declared known).2, ¬d.BlamesId := by
  induction declared generalizing known with
  | nil => exact fun d hd => absurd hd List.not_mem_nil
  | cons first rest ih =>
    obtain ⟨n, position⟩ := first
    obtain ⟨hn, hrest⟩ := List.forall_mem_cons.1 hnamed
    obtain ⟨hfirst, hnodup⟩ := List.nodup_cons.1 hdistinct
    obtain ⟨hfresh, hlater⟩ := List.forall_mem_cons.1 hnew
    rw [collect]
    cases hbad : nodeError? position n with
    | some d =>
      refine List.forall_mem_cons.2 ⟨?_, ih known hrest hnodup hlater⟩
      unfold nodeError? at hbad
      rw [if_neg (by simpa using hn)] at hbad
      obtain ⟨label, -, rfl⟩ := Option.map_eq_some_iff.1 hbad
      rintro (hcode | ⟨_, heq⟩)
      · cases hcode
      · simp at heq
    | none =>
      have hnone : known.find? (·.node.id == n.id) = none := by
        rw [List.find?_eq_none]
        exact fun m hm heq => hfresh m hm (by simpa using heq)
      dsimp only
      rw [hnone]
      refine ih _ hrest hnodup fun p hp m hm => ?_
      rcases List.mem_append.1 hm with hm | hm
      · exact hlater p hp m hm
      · rw [List.mem_singleton.1 hm]
        exact fun heq => hfirst (List.mem_map.2 ⟨p, hp, heq.symm⟩)

end NormalGraph

/-- **A revision whose nodes have ids of their own is not blamed for ids** by any compilation. -/
theorem Revision.not_blamesId {r : Revision} (hnamed : ∀ n ∈ r.nodes, n.id ≠ [])
    (hdistinct : (r.nodes.map (·.id)).Nodup) (o : CompilerOptions) :
    ∀ d ∈ (r.compile o).errors ++ (r.compile o).warnings, ¬d.BlamesId := by
  intro d hd hblames
  have hnode : ¬d.Elsewhere := by
    rintro ⟨hduplicate, hinvalid⟩
    rcases hblames with hcode | ⟨_, rfl⟩
    · exact hduplicate hcode
    · exact hinvalid rfl
  refine NormalGraph.not_blamesId_collect r.nodes.zipIdx [] (fun p hp => ?_) ?_ ?_ d
    (mem_normal_of_compile o hd hnode) hblames
  · exact hnamed p.1 (List.fst_mem_of_mem_zipIdx hp)
  · have hids : (r.nodes.zipIdx.map Prod.fst).map (·.id) = r.nodes.map (·.id) := by
      rw [List.zipIdx_map_fst]
    rw [List.map_map] at hids
    exact hids ▸ hdistinct
  · exact fun p _ m hm => absurd hm List.not_mem_nil

end DecisionEngine
