import DecisionEngine.Proofs.Program.Acceptance
/-!
# What a refused conjunct leaves behind

An emitter writes while it goes over an expression, and keeps what it has written when it is
refused half-way.  A test of whether one of no nodes has fired is refused before anything is
written; an expression is refused after its conjunct was started.

* `Assembly.run_emit` — what a conjunct leaves, refused or not.
* `Assembly.Behind` — an assembly with a conjunct too many, which no later conjunct makes up for.
* `Assembly.intact_iff_of_refused` — which refusals leave later programs as they would have been.
-/

namespace DecisionEngine
namespace Assembly

variable {s s' : Assembly}

/-! ## Conjuncts that are started -/

/-- A conjunct that is started counts, whether it is refused or not, and stands behind a jump unless
it is the first. -/
theorem run_emit {c : Conjunct} (hc : c ≠ .anyFired []) (outcome : Bool) :
    ∃ n, ∀ s : Assembly, s.allowOutcome = outcome →
      (c.emit.run.run s).1.isOk = c.accepted outcome ∧
        (c.emit.run.run s).2.allowOutcome = outcome ∧
        (c.emit.run.run s).2.conjuncts = s.conjuncts + 1 ∧
        (c.emit.run.run s).2.code.length + (s.conjuncts - 1) = s.code.length + s.conjuncts + n := by
  obtain ⟨n, hbody⟩ := lengthens_body hc outcome
  refine ⟨n, fun s hs => ?_⟩
  -- The conjunct is started before its body is reached, so a refusal finds it started.
  obtain ⟨_, t, hbegin, ht⟩ := accepts_beginConjunct s hs
  have hstarted : t.conjuncts = s.conjuncts + 1 ∧
      t.code.length + (s.conjuncts - 1) = s.code.length + s.conjuncts := by
    rcases Nat.eq_zero_or_pos s.conjuncts with hfirst | hnext
    · rw [emits_beginConjunct_first hbegin hfirst]
      exact ⟨rfl, by simp only; omega⟩
    · rw [emits_beginConjunct_next hbegin hnext]
      exact ⟨rfl, by simp only [List.length_append, List.length_cons, List.length_nil]; omega⟩
  obtain ⟨hconjuncts, hcode⟩ := hstarted
  have hwritten := hbody t ht
  rw [emit_eq hc, run_bind, show beginConjunct.run.run s = (.ok (), t) from hbegin]
  refine ⟨hwritten.isOk, hwritten.allowOutcome.trans ht, hwritten.conjuncts.trans hconjuncts, ?_⟩
  have hlength := hwritten.length
  dsimp only
  omega

/-- Which conjuncts are refused. -/
theorem refused_iff {c : Conjunct} {s : Assembly} :
    (∃ e s', c.emit.run.run s = (.error e, s')) ↔ c = .anyFired [] ∨
      ∃ x, c = .expression x ∧ x.refersToOutcome = true ∧ s.allowOutcome = false := by
  by_cases hc : c = .anyFired []
  · subst hc
    exact ⟨fun _ => .inl rfl, fun _ => ⟨.noNodes, s, rfl⟩⟩
  · obtain ⟨n, hrun⟩ := run_emit hc s.allowOutcome
    obtain ⟨hok, -⟩ := hrun s rfl
    have hrefused : (∃ e s', c.emit.run.run s = (.error e, s')) ↔
        c.accepted s.allowOutcome = false := by
      rw [← hok]
      rcases c.emit.run.run s with ⟨e | u, t⟩
      · exact ⟨fun _ => rfl, fun _ => ⟨e, t, rfl⟩⟩
      · exact ⟨fun ⟨_, _, h⟩ => (nomatch h), fun h => (nomatch h)⟩
    rw [hrefused, or_iff_right hc]
    cases c with
    | expression x =>
      simp only [Conjunct.accepted, Conjunct.expression.injEq, Bool.or_eq_false_iff,
        Bool.not_eq_false', exists_eq_left', and_comm]
    | anyFired nodes =>
      have hsome : nodes.isEmpty = false := by simpa using hc
      simp [Conjunct.accepted, hsome]
    | _ => simp [Conjunct.accepted]

/-! ## Later programs -/

/-- What conjuncts leave one after another, refused ones too. -/
def attempts (cs : List Conjunct) (s : Assembly) : Assembly :=
  cs.foldl (fun s c => (c.emit.run.run s).2) s

/-- Whatever is emitted from now on, the program and the number of its conjuncts become what they
would have become before. -/
def Intact (s s' : Assembly) : Prop :=
  ∀ more, (attempts more s').finish.1 = (attempts more s).finish.1 ∧
    (attempts more s').conjuncts = (attempts more s).conjuncts

/-- An assembly has a conjunct more than another one, and its jump.  Conjuncts have one jump less
than there are, or none. -/
structure Behind (s s' : Assembly) : Prop where
  allowOutcome : s'.allowOutcome = s.allowOutcome
  conjuncts : s'.conjuncts = s.conjuncts + 1
  code_le : s.code.length + s.conjuncts ≤ s'.code.length + (s.conjuncts - 1)

namespace Behind

/-- Starting a conjunct is not undone when it is refused. -/
theorem of_emit {c : Conjunct} (hc : c ≠ .anyFired []) (s : Assembly) :
    Behind s (c.emit.run.run s).2 := by
  obtain ⟨n, hrun⟩ := run_emit hc s.allowOutcome
  obtain ⟨-, hallow, hconjuncts, hcode⟩ := hrun s rfl
  exact ⟨hallow, hconjuncts, by omega⟩

/-- A conjunct is written in both alike, but for its jump if it is the first. -/
theorem emit (h : Behind s s') (c : Conjunct) :
    Behind (c.emit.run.run s).2 (c.emit.run.run s').2 := by
  by_cases hc : c = .anyFired []
  · subst hc
    exact h
  · obtain ⟨hallow, hconjuncts, hle⟩ := h
    obtain ⟨n, hrun⟩ := run_emit hc s.allowOutcome
    obtain ⟨-, hallow₁, hconjuncts₁, hcode₁⟩ := hrun s rfl
    obtain ⟨-, hallow₂, hconjuncts₂, hcode₂⟩ := hrun s' hallow
    exact ⟨hallow₂.trans hallow₁.symm, by omega, by omega⟩

theorem attempts (h : Behind s s') (more : List Conjunct) :
    Behind (Assembly.attempts more s) (Assembly.attempts more s') := by
  induction more generalizing s s' with
  | nil => exact h
  | cons c more ih => exact ih (h.emit c)

end Behind

theorem length_finish (s : Assembly) :
    s.finish.1.code.length = if s.conjuncts = 0 then 0 else s.code.length + 2 := by
  unfold finish
  split
  · rfl
  · simp only [List.length_append, List.length_cons, List.length_nil, foldl_patch_length]

theorem Behind.finish_lt (h : Behind s s') :
    s.finish.1.code.length < s'.finish.1.code.length := by
  obtain ⟨-, hconjuncts, hle⟩ := h
  rw [length_finish, length_finish, if_neg (by omega : s'.conjuncts ≠ 0)]
  split <;> omega

/-- **A refusal spares what was assembled only before anything is written.**  A conjunct is refused
because it tests no nodes or because its expression refers, at any depth, to an outcome where there
is none.  In the first case the assembly is what it was.  In the second it is not intact: it has a
conjunct more, and whatever is emitted later, accepted or refused, the finished program has a
conjunct and instructions more than it would have had. -/
theorem intact_iff_of_refused {c : Conjunct} {e : AssemblyError}
    (h : c.emit.run.run s = (.error e, s')) :
    (Intact s s' ↔ c = .anyFired []) ∧
    (c = .anyFired [] → e = .noNodes ∧ s' = s) ∧
    (c ≠ .anyFired [] →
      (∃ x, c = .expression x ∧ x.refersToOutcome = true ∧ s.allowOutcome = false) ∧
      ∀ more, (attempts more s').conjuncts = (attempts more s).conjuncts + 1 ∧
        (attempts more s).finish.1.code.length < (attempts more s').finish.1.code.length) := by
  have hspared : c = .anyFired [] → e = .noNodes ∧ s' = s := by
    rintro rfl
    cases h
    exact ⟨rfl, rfl⟩
  have hharmed : c ≠ .anyFired [] → ∀ more, Behind (attempts more s) (attempts more s') := by
    intro hc more
    have hbehind := Behind.of_emit hc s
    rw [h] at hbehind
    exact hbehind.attempts more
  refine ⟨⟨fun hintact => ?_, ?_⟩, hspared, fun hc => ⟨?_, fun more => ?_⟩⟩
  · by_contra hc
    have hsame := (hintact []).2
    have hmore := (hharmed hc []).conjuncts
    omega
  · intro hc more
    rw [(hspared hc).2]
    exact ⟨rfl, rfl⟩
  · exact (refused_iff.1 ⟨e, s', h⟩).resolve_left hc
  · exact ⟨(hharmed hc more).conjuncts, (hharmed hc more).finish_lt⟩

/-- An outcome, where a guard must not refer to one. -/
def outcomeGuard : Conjunct := .expression (.reference ⟨0, .outcome, utf8 "x"⟩)

/-- What its refusal leaves of an assembly that was just started. -/
def afterOutcomeGuard : Assembly := (outcomeGuard.emit.run.run (.start .empty false)).2

theorem intact_iff_of_refused_outcome :
    outcomeGuard.emit.run.run (.start .empty false) =
      (.error (.expression ⟨.outcomeReference (utf8 "x"), 0⟩), afterOutcomeGuard) ∧
      ¬ Intact (.start .empty false) afterOutcomeGuard := by
  have h : outcomeGuard.emit.run.run (.start .empty false) =
      (.error (.expression ⟨.outcomeReference (utf8 "x"), 0⟩), afterOutcomeGuard) := rfl
  exact ⟨h, fun hintact => nomatch (intact_iff_of_refused h).1.1 hintact⟩

/-- What is known when just one node has fired. -/
def firedEvidence : Evidence := ⟨.empty, .empty, .empty, [true]⟩

/-- A test of a node that is emitted afterwards is taken for a second conjunct: its program starts
with the jump of the first one, which finds nothing on the stack. -/
theorem refused_conjunct_remains :
    outcomeGuard.emit.run.run (.start .empty false) =
      (.error (.expression ⟨.outcomeReference (utf8 "x"), 0⟩), afterOutcomeGuard) ∧
    (attempts [.fired 0] (.start .empty false)).conjuncts = 1 ∧
    (attempts [.fired 0] afterOutcomeGuard).conjuncts = 2 ∧
    (attempts [.fired 0] (.start .empty false)).finish.1.code =
      [⟨.fired, 0, 0⟩, ⟨.checkBool, 0, 0⟩, ⟨.return, 0, 0⟩] ∧
    (attempts [.fired 0] afterOutcomeGuard).finish.1.code =
      [⟨.jumpIfFalse, 3, 0⟩, ⟨.fired, 0, 0⟩, ⟨.checkBool, 0, 0⟩, ⟨.return, 0, 0⟩] ∧
    (attempts [.fired 0] (.start .empty false)).finish.1.run (firedEvidence.env []) = .ok true ∧
    (attempts [.fired 0] afterOutcomeGuard).finish.1.run (firedEvidence.env []) =
      .error ⟨.stackUnderflow, 0⟩ :=
  ⟨rfl, rfl, rfl, rfl, rfl, by decide +kernel, by decide +kernel⟩

end Assembly
end DecisionEngine
