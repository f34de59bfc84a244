import DecisionEngine.Proofs.Engine.Calls
import DecisionEngine.Proofs.Failure
/-!
# The context that a request is answered on

A context is found in one of five ways.  Three of them give a snapshot that somebody published; the
other two give a snapshot, or none, that the options and the entity alone determine.

* `Resolver.Settles` — what an answer of the source can come to.
* `Engine.returns_resolve` — what resolving a context gives and what it does.
* `ContextOrigin.isArchived` — the origins of published snapshots.
* `Engine.recoverable_of_resolve` — which snapshots go with which origins.
-/

namespace DecisionEngine

/-! ## Origins -/

/-- Whether a snapshot of an origin was published before, and may be archived. -/
def ContextOrigin.isArchived : ContextOrigin → Bool
  | hotCache | shared | staleFallback => true
  | .default | failClosed | pinned => false

/-- A context of which the snapshot can be found again: it was published, or it is the default, or
there is none. -/
inductive ResolvedContext.Recoverable (o : Options) (key : ContextKey) : ResolvedContext → Prop
  | published (s : Snapshot) (origin : ContextOrigin) (notes : List Bytes)
    (archived : origin.isArchived = true) (few : notes.length ≤ 2) :
    Recoverable o key ⟨some s, origin, notes⟩
  | anonymous (notes : List Bytes) (few : notes.length ≤ 2) :
    Recoverable o key ⟨some (Resolver.defaultSnapshot o key), .default, notes⟩
  | nowhere (notes : List Bytes) (few : notes.length ≤ 2) :
    Recoverable o key ⟨none, .failClosed, notes⟩

namespace ResolvedContext.Recoverable

variable {o : Options} {key : ContextKey} {c : ResolvedContext}

theorem notes_length (h : c.Recoverable o key) : c.notes.length ≤ 2 := by
  cases h with
  | published s origin notes _ few => exact few
  | anonymous notes few => exact few
  | nowhere notes few => exact few

end ResolvedContext.Recoverable

namespace Resolver

open ResolvedContext (Recoverable)

variable {r : Resolver} {o : Options} {key : ContextKey} {now : Int64} {answer : FetchAnswer}
  {c : ResolvedContext}

/-- What an answer of the source can come to: the snapshot that was fetched, the default one, that
of a copy, or none. -/
inductive Settles (r : Resolver) (o : Options) (key : ContextKey) (answer : FetchAnswer) :
    ResolvedContext → Prop
  | fetched (s : Snapshot) (found : answer = .found s) (own : s.key = key) :
    Settles r o key answer ⟨some s, .shared, []⟩
  | anonymous (notes : List Bytes) (few : notes.length ≤ 2) :
    Settles r o key answer ⟨some (defaultSnapshot o key), .default, notes⟩
  | stale (copy : LocalCopy) (kept : r.copy? key = some copy) (notes : List Bytes)
    (few : notes.length ≤ 2) :
    Settles r o key answer ⟨some copy.snapshot, .staleFallback, notes⟩
  | nowhere (notes : List Bytes) (few : notes.length ≤ 2) :
    Settles r o key answer ⟨none, .failClosed, notes⟩

theorem settles_miss {note : Bytes} {warnings : List Warning}
    (h : (r.miss o key note warnings).result = .ok c) : Settles r o key answer c := by
  unfold miss at h
  dsimp only at h
  split at h
  · cases h
    exact .anonymous _ (Nat.le_refl 2)
  · cases h

theorem settles_outage {reason : Bytes} (h : (r.outage o key reason).result = .ok c) :
    Settles r o key answer c := by
  unfold outage at h
  split at h
  · rename_i copy hcopy
    cases h
    exact .stale copy hcopy _ (Nat.le_succ 1)
  · dsimp only at h
    split at h
    · cases h
      exact .nowhere _ (Nat.le_succ 1)
    · cases h

theorem settles_of_ok (h : (r.settle o key now answer).result = .ok c) :
    Settles r o key answer c := by
  cases answer with
  | found s =>
    unfold settle at h
    dsimp only at h
    split at h
    · rename_i hs
      cases h
      exact .fetched s rfl hs
    · exact settles_miss h
  | missing => exact settles_miss h
  | unavailable detail => exact settles_outage h
  | failed what => exact settles_outage h
  | timedOut stage => cases h
  | unexplained => cases h

/-- Every answer of the source that comes to a context comes to one that can be found again. -/
theorem Settles.recoverable (h : Settles r o key answer c) : c.Recoverable o key := by
  cases h with
  | fetched s _ _ => exact .published s .shared [] rfl (Nat.zero_le 2)
  | anonymous notes few => exact .anonymous notes few
  | stale copy _ notes few => exact .published copy.snapshot .staleFallback notes rfl few
  | nowhere notes few => exact .nowhere notes few

end Resolver

namespace Engine

open Call

variable {σ : Type} {out : Surroundings σ} {key : ContextKey} {now : Int64}
  {c : ResolvedContext} {w w' : World σ}

/-! ## Resolving a context -/

/-- What the source answers in a world, as the resolver settles it. -/
def settled (out : Surroundings σ) (key : ContextKey) (now : Int64) (w : World σ) : Settled :=
  w.engine.resolver.settle w.engine.options key now (out.fetch key w.outside).1

/-- What is outside after the source was asked, and the write path if that was called for. -/
def asked (out : Surroundings σ) (key : ContextKey) (now : Int64) (w : World σ) : σ :=
  if (settled out key now w).rehydrate then out.rehydrate key (out.fetch key w.outside).2
  else (out.fetch key w.outside).2

/-- A recent copy is used at once: nothing is done outside. -/
theorem run_resolve_hot {s : Snapshot}
    (hhot : w.engine.resolver.hot? w.engine.options key now = some s) :
    (resolve out key now).run.run w = (.ok ⟨some s, .hotCache, []⟩,
      { w with engine := { w.engine with resolver := w.engine.resolver.countHit } }) := by
  unfold resolve
  rw [run_engine_bind, hhot]
  rfl

/-- Without a recent copy, the answer of the source is settled. -/
theorem run_resolve_cold (hhot : w.engine.resolver.hot? w.engine.options key now = none) :
    (resolve out key now).run.run w = ((settled out key now w).result.mapError .ofResolve,
      ⟨{ w.engine with resolver := (settled out key now w).resolver }, asked out key now w,
        w.warnings ++ (settled out key now w).warnings⟩) := by
  unfold resolve asked settled
  rw [run_engine_bind, hhot]
  dsimp only
  rw [run_withOutside_bind, run_update_bind, run_warn_bind]
  generalize w.engine.resolver.settle w.engine.options key now (out.fetch key w.outside).1 =
    settled
  obtain ⟨result, resolver, rehydrate, warnings⟩ := settled
  cases rehydrate with
  | true => cases result <;> rfl
  | false => cases result <;> rfl

theorem returns_resolve_hot {s : Snapshot}
    (hhot : w.engine.resolver.hot? w.engine.options key now = some s) :
    Returns (resolve out key now) w c w' ↔ c = ⟨some s, .hotCache, []⟩ ∧
      w' = { w with engine := { w.engine with resolver := w.engine.resolver.countHit } } := by
  unfold Returns
  rw [run_resolve_hot hhot, Prod.mk.injEq, Except.ok.injEq, eq_comm, eq_comm (b := w')]

theorem returns_resolve_cold (hhot : w.engine.resolver.hot? w.engine.options key now = none) :
    Returns (resolve out key now) w c w' ↔ (settled out key now w).result = .ok c ∧
      w' = ⟨{ w.engine with resolver := (settled out key now w).resolver }, asked out key now w,
        w.warnings ++ (settled out key now w).warnings⟩ := by
  unfold Returns
  rw [run_resolve_cold hhot, Prod.mk.injEq, mapError_eq_ok, eq_comm (b := w')]

/-- A recent copy is used at once, and nothing is done outside; else the answer of the source
counts. -/
theorem returns_resolve : Returns (resolve out key now) w c w' ↔
    (∃ s, w.engine.resolver.hot? w.engine.options key now = some s ∧ c = ⟨some s, .hotCache, []⟩ ∧
      w' = { w with engine := { w.engine with resolver := w.engine.resolver.countHit } }) ∨
    (w.engine.resolver.hot? w.engine.options key now = none ∧
      (settled out key now w).result = .ok c ∧
      w' = ⟨{ w.engine with resolver := (settled out key now w).resolver }, asked out key now w,
        w.warnings ++ (settled out key now w).warnings⟩) := by
  cases hhot : w.engine.resolver.hot? w.engine.options key now with
  | some s =>
    rw [returns_resolve_hot hhot]
    simp
  | none =>
    rw [returns_resolve_cold hhot]
    simp

/-- Every context that is resolved can be found again. -/
theorem recoverable_of_resolve (h : Returns (resolve out key now) w c w') :
    c.Recoverable w.engine.options key := by
  rcases returns_resolve.1 h with ⟨s, -, rfl, -⟩ | ⟨-, hresult, -⟩
  · exact .published s .hotCache [] rfl (Nat.zero_le 2)
  · exact (Resolver.settles_of_ok hresult).recoverable

/-- What an engine has counted makes no difference to the context. -/
theorem resolve_of_counted {t : Statistics}
    (h : Returns (resolve out key now) { w with engine := { w.engine with statistics := t } } c w') :
    ∃ v, Returns (resolve out key now) w c v ∧ v.outside = w'.outside := by
  rcases returns_resolve.1 h with ⟨s, hhot, rfl, rfl⟩ | ⟨hhot, hresult, rfl⟩
  · exact ⟨_, returns_resolve.2 (.inl ⟨s, hhot, rfl, rfl⟩), rfl⟩
  · exact ⟨_, returns_resolve.2 (.inr ⟨hhot, hresult, rfl⟩), rfl⟩

end Engine
end DecisionEngine
