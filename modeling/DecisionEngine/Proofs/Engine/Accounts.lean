import DecisionEngine.Proofs.Compile.Layout
import DecisionEngine.Proofs.Engine.Explanations
import DecisionEngine.Proofs.Plan.Accounts
/-!
# Answers account for all nodes of a plan

An answer with an explanation accounts for every step of a compiled plan, and so for each of its
nodes: the entries about tests name the nodes one by one, in their order.  What an engine writes
around a run, on how the context was resolved and what became of a token, accounts for nothing.

* `Response.Accounts` — an answer accounts for a situation.
* `Response.accounts_ofRun` — the answer that comes from a run does.
* `Engine.trail_accounts_for_steps` — so do the answers of compiled plans.
-/

namespace DecisionEngine

/-! ## Around a run -/

namespace Trail

/-- A note is about no step. -/
theorem only_note {kind : TrailKind} (h : kind.isOfStep = false) (detail : Bytes) :
    Only (fun k => !k.isOfStep) [TrailEntry.note kind detail] :=
  only_singleton (by rw [TrailEntry.note, h]; rfl)

end Trail

/-- What is written in front of the steps is about none of them. -/
theorem Pinned.only_opening (pin : Pinned) (b : Blueprint) (s : Snapshot) :
    (pin.opening b s).Only fun k => !k.isOfStep := by
  have hnotes : Trail.Only (fun k => !k.isOfStep) pin.noteEntries := by
    intro e he
    obtain ⟨note, -, rfl⟩ := List.mem_map.1 he
    rfl
  exact (((Trail.only_note rfl _).append hnotes).append
    (Trail.only_ite Trail.only_nil (Trail.only_note rfl _))).append
    (Trail.only_ite (Trail.only_note rfl _) Trail.only_nil)

/-! ## Answers -/

/-- An answer accounts for a situation: each step of the plan has its turn, in their order, the
trail and the alternatives account for the turns, and the entries about tests name all nodes of the
plan, one by one. -/
structure Response.Accounts (response : Response) (s : Situation) : Prop where
  steps : s.allTurns.map (fun t => (t.step, t.index)) = s.blueprint.steps.zipIdx
  ledger : s.Ledger s.allTurns response.trail response.alternatives
  nodes : response.trail.tests.map (·.node) = s.blueprint.nodes.map (·.id)

/-- The ids of all numbers of nodes are those of the nodes. -/
theorem Situation.map_idOf_range (s : Situation) :
    (List.range s.blueprint.nodes.length).map s.idOf = s.blueprint.nodes.map (·.id) := by
  refine List.ext_getElem (by simp) fun i hi hi' => ?_
  have hlt : i < s.blueprint.nodes.length := by simpa using hi
  simp [idOf, Blueprint.nodeId?, List.getElem?_eq_getElem hlt]

/-- The answer that comes from a run where everything is explained accounts for it, if the steps
number the nodes of the plan in their order. -/
theorem Response.accounts_ofRun (s : Situation) {result : Situation.RunResult} (pin : Pinned)
    (snapshot : Snapshot) (hverbose : s.verbose = true)
    (hnumbered : s.blueprint.steps.flatMap Step.numbers = List.range s.blueprint.nodes.length)
    (hrun : s.run = .ok result) :
    (ofRun s.blueprint snapshot pin true result).Accounts s := by
  obtain ⟨hledger, hsteps⟩ := Situation.ledger_run hverbose hrun
  have hclosing : Trail.Only (fun k => !k.isOfStep) (if result.decisions.isEmpty then
      [TrailEntry.note .resolution (utf8 "no decision")] else []) :=
    Trail.only_ite (Trail.only_note rfl _) Trail.only_nil
  have hall := ((Situation.ledger_of_foreign (pin.only_opening s.blueprint snapshot)).append
    hledger).append (Situation.ledger_of_foreign hclosing)
  rw [List.nil_append, List.nil_append, List.append_nil, List.append_nil] at hall
  refine ⟨hsteps, hall, ?_⟩
  have hnumbers : (s.allTurns.flatMap fun turn => turn.step.choices.map (·.1)) =
      s.blueprint.steps.flatMap Step.numbers := by
    have hturns : s.allTurns.map (·.step) = s.blueprint.steps := by
      rw [← List.zipIdx_map_fst 0 s.blueprint.steps, ← hsteps, List.map_map]
      rfl
    rw [← hturns, List.flatMap_map]
    rfl
  refine hall.nodes.trans ?_
  rw [hnumbers, hnumbered]
  exact s.map_idOf_range

/-! ## Compiled plans -/

namespace Revision

variable {r : Revision} {o : CompilerOptions} {b : Blueprint}

/-- The nodes of a compiled plan have names. -/
theorem Passed.named (h : r.Passed o b) : ∀ n ∈ b.nodes, n.id ≠ [] := by
  intro n hn
  have hid : n.id ∈ (r.context o).table := h.nodes ▸ List.mem_map_of_mem hn
  have hkept : r.Kept o n.id := by
    rw [← h.depicts.kept]
    exact (h.arranges.perm.map _).mem_iff.1 hid
  obtain ⟨m, hm, hmn, -⟩ := h.checked.isLeaf_of_kept hkept
  rw [← hmn]
  exact (checked_iff.1 h.checked).ids m hm

theorem Passed.distinct (h : r.Passed o b) : (b.nodes.map (·.id)).Nodup := by
  rw [h.nodes]
  exact h.nodup_table

end Revision

namespace Engine

open Call

variable {σ : Type} {clock : Clock} {request : Request} {r : Revision} {o : CompilerOptions}
  {b : Blueprint} {s : Snapshot}

/-- **The trail accounts for every step.**  Where an explanation is asked for, the answer from a
compiled plan and a snapshot of the tenant, however the context was obtained and with any
comparators, accounts for the situation of the plan: there is one entry about the test of each node,
in the order of steps and branches, which says that the guard passes exactly if the mask and the
program do; one that a node fires, if it does; one about every selection, with its winner; and an
alternative for every branch that passes and does not win.  No two nodes have the same name, and
none has the empty one, by which a selection without winner goes. -/
theorem trail_accounts_for_steps (out : Surroundings σ) (w : World σ) (pin : Pinned)
    (hcompiled : (r.compile o).blueprint = some b) (hverbose : w.engine.isVerbose request = true)
    (htenant : tenantError? request b (some s) = none)
    (htime : w.engine.hasExpired request clock = false) :
    (∃ response, (executePinned out clock request (some b) (some s) pin).outcome w = .ok response ∧
      response.Accounts (pin.situation b s request.inputs true w.engine.comparators false)) ∧
    (b.nodes.map (·.id)).Nodup ∧ ∀ n ∈ b.nodes, n.id ≠ [] := by
  have hpassed := Revision.passed_of_compile hcompiled
  refine ⟨?_, hpassed.distinct, hpassed.named⟩
  let situation := pin.situation b s request.inputs true w.engine.comparators false
  obtain ⟨result, hrun⟩ := Situation.exists_run (s := situation) rfl hpassed.runnable
  have hplanned : w.engine.planned request b (some s) pin false =
      .ok (.ofRun b s pin true result) := by
    unfold planned
    dsimp only
    rw [hverbose, hrun]
    rfl
  rw [outcome_executePinned htenant, htime, hplanned]
  have haccounts := Response.accounts_ofRun situation pin s rfl hpassed.numbered hrun
  exact ⟨_, rfl, haccounts.steps, haccounts.ledger, haccounts.nodes⟩

/-- The plan of rewards has a step with one node, and a selection between three. -/
theorem trail_accounts_for_steps_rewards :
    (Revision.rewardsSample.compile .standard).blueprint =
        some (Revision.rewardsSample.planned .standard) ∧
      freshSample.engine.isVerbose tokenSample = true ∧
      tenantError? tokenSample (Revision.rewardsSample.planned .standard) (some contextSample) =
        none ∧
      freshSample.engine.hasExpired tokenSample ⟨0, 0, 0⟩ = false ∧
      ∃ response, (executePinned strangers ⟨0, 0, 0⟩ tokenSample
          (some (Revision.rewardsSample.planned .standard)) (some contextSample)
          .plain).outcome freshSample = .ok response ∧
        response.Accounts (Pinned.situation .plain (Revision.rewardsSample.planned .standard)
          contextSample tokenSample.inputs true freshSample.engine.comparators false) := by
  have hverbose : freshSample.engine.isVerbose tokenSample = true := by decide
  have htenant : tenantError? tokenSample (Revision.rewardsSample.planned .standard)
      (some contextSample) = none := rfl
  have htime : freshSample.engine.hasExpired tokenSample ⟨0, 0, 0⟩ = false := by decide
  obtain ⟨hanswer, -⟩ := trail_accounts_for_steps strangers freshSample .plain
    Revision.compile_rewardsSample hverbose htenant htime
  exact ⟨Revision.compile_rewardsSample, hverbose, htenant, htime, hanswer⟩

end Engine
end DecisionEngine
