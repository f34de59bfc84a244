import DecisionEngine.Proofs.Engine.Degraded
import DecisionEngine.Proofs.Keyed
import Mathlib.Data.List.Induction
/-!
# Contexts stay with their entities

Whose snapshot an answer of the source is, is judged once, when it comes in.  The copy that is kept
of it is used later without another look: at once while it is recent, and at any age while the
source is out of reach.  What holds of contexts therefore rests on what one step does to a copy: it
is still there, and nothing was fetched in its place, or else the step fetched just this snapshot.

* `Resolver.Orderly` — the queue lists the entities that have copies, and there are not too many.
* `Lookup`, `World.lookedUpAll` — what happens to a resolver.
* `Lookup.Fetches`, `Lookup.Drops`, `World.LastFetched` — where a copy comes from, and its end.
* `World.copy?_lookedUp` — what one step does to a copy.
* `Engine.resolves_own_entity` — what every context is, after any history.
-/

namespace DecisionEngine

/-! ## One answer of the source -/

namespace Resolver

variable {r : Resolver} {o : Options} {key other : ContextKey} {now : Int64} {answer : FetchAnswer}
  {copy : LocalCopy} {c : ResolvedContext}

/-- An answer that is no snapshot of the entity makes a difference to the figures only. -/
theorem settle_other (r : Resolver) (o : Options) (now : Int64)
    (h : ∀ s, answer = .found s → s.key ≠ key) : ∃ figures,
    (r.settle o key now answer).resolver = { r with figures := figures } := by
  have houtage : ∀ reason, ∃ figures,
      (r.outage o key reason).resolver = { r with figures := figures } := by
    intro reason
    unfold outage
    cases r.copy? key with
    | some copy => exact ⟨_, rfl⟩
    | none => exact ⟨_, rfl⟩
  cases answer with
  | found s =>
    unfold settle
    dsimp only
    rw [if_neg (h s rfl)]
    exact ⟨_, rfl⟩
  | missing => exact ⟨_, rfl⟩
  | unavailable detail => exact houtage _
  | failed what => exact houtage _
  | timedOut stage => exact ⟨r.figures, rfl⟩
  | unexplained => exact ⟨r.figures, rfl⟩

theorem copies_settle (h : ∀ s, answer = .found s → s.key ≠ key) :
    (r.settle o key now answer).resolver.copies = r.copies := by
  obtain ⟨figures, hfigures⟩ := settle_other r o now h
  rw [hfigures]

/-- A snapshot of the entity is stored. -/
theorem settle_found {s : Snapshot} (h : s.key = key) :
    r.settle o key now (.found s) = r.fetched o key now s := by
  unfold settle
  exact if_pos h

/-! ### Copies in good order -/

/-- The queue lists the entities that have copies, each once, and there are not too many. -/
structure Orderly (capacity : Nat) (r : Resolver) : Prop where
  distinct : Keyed.Distinct r.copies
  bounded : r.copies.length ≤ capacity
  queued : r.order = r.copies.map (·.1)

/-- Trimming a queue of all entities keeps the latest copies. -/
theorem trimmed_eq {copies : List (ContextKey × LocalCopy)} (h : Keyed.Distinct copies)
    (capacity : Nat) : trimmed capacity (copies.map (·.1)) copies =
      ((Keyed.latest capacity copies).map (·.1), Keyed.latest capacity copies) := by
  induction copies with
  | nil => simp [trimmed, Keyed.latest]
  | cons first rest ih =>
    rw [List.map_cons, trimmed]
    by_cases hmany : capacity < (first :: rest).length
    · have hlatest : Keyed.latest capacity (first :: rest) = Keyed.latest capacity rest := by
        unfold Keyed.latest
        rw [List.length_cons] at hmany ⊢
        rw [Nat.succ_sub (Nat.le_of_lt_succ hmany), List.drop_succ_cons]
      rw [if_pos hmany, h.remove_first, ih h.of_cons, hlatest]
    · rw [if_neg hmany, Keyed.latest_of_length_le (Nat.le_of_not_lt hmany), List.map_cons]

namespace Orderly

variable {capacity : Nat} (h : r.Orderly capacity)
include h

theorem mem_order_iff : key ∈ r.order ↔ (r.copy? key).isSome := by
  rw [h.queued, Option.isSome_iff_ne_none, copy?, Ne, Keyed.find?_eq_none_iff, not_not]

/-- Storing a copy crowds out those at the front of the queue. -/
theorem remember_eq (hroom : capacity ≠ 0) : r.remember capacity key copy =
    { r with
      copies := Keyed.latest capacity (Keyed.assign key copy r.copies)
      order := (Keyed.latest capacity (Keyed.assign key copy r.copies)).map (·.1) } := by
  unfold remember
  rw [if_neg hroom]
  dsimp only
  have hkeys := Keyed.map_fst_assign key copy r.copies
  by_cases hkey : key ∈ r.copies.map (·.1)
  · have hknown : (r.copy? key).isSome := h.mem_order_iff.1 (h.queued ▸ hkey)
    have hfits : (Keyed.assign key copy r.copies).length ≤ capacity := by
      rw [Keyed.length_assign_of_mem copy hkey]
      exact h.bounded
    rw [if_pos hkey] at hkeys
    rw [if_pos hknown, Keyed.latest_of_length_le hfits, hkeys, ← h.queued]
  · have hunknown : ¬(r.copy? key).isSome := fun hknown =>
      hkey (h.queued ▸ h.mem_order_iff.2 hknown)
    rw [if_neg hkey, ← h.queued] at hkeys
    rw [if_neg hunknown, ← hkeys, trimmed_eq (h.distinct.assign key copy)]

theorem remember (key : ContextKey) (copy : LocalCopy) :
    (r.remember capacity key copy).Orderly capacity := by
  by_cases hroom : capacity = 0
  · unfold Resolver.remember
    rwa [if_pos hroom]
  · rw [h.remember_eq hroom]
    exact ⟨(h.distinct.assign key copy).latest capacity, Keyed.length_latest_le _ _, rfl⟩

/-- What is found after a copy was stored. -/
theorem copy?_remember {found : LocalCopy}
    (hfound : (r.remember capacity key copy).copy? other = some found) :
    if key = other then found = copy else r.copy? other = some found := by
  by_cases hroom : capacity = 0
  · have hnone := (h.remember key copy).bounded
    rw [hroom, Nat.le_zero, List.length_eq_zero_iff, ← hroom] at hnone
    rw [copy?, hnone] at hfound
    cases hfound
  · rw [h.remember_eq hroom] at hfound
    exact h.distinct.find?_latest_assign hfound

theorem invalidate (key : ContextKey) : (r.invalidate key).Orderly capacity := by
  unfold Resolver.invalidate
  split
  · exact h
  · refine ⟨h.distinct.remove key, (List.length_filter_le ..).trans h.bounded, ?_⟩
    rw [h.distinct.map_fst_remove, h.queued]

theorem counted (figures : ResolverFigures) : Orderly capacity { r with figures := figures } :=
  ⟨h.distinct, h.bounded, h.queued⟩

end Orderly

theorem Orderly.settle (h : r.Orderly o.fallbackCapacity.toNat) (key : ContextKey) (now : Int64)
    (answer : FetchAnswer) :
    (r.settle o key now answer).resolver.Orderly o.fallbackCapacity.toNat := by
  by_cases hfound : ∃ s, answer = .found s ∧ s.key = key
  · obtain ⟨s, rfl, hs⟩ := hfound
    rw [settle_found hs]
    exact (h.counted _).remember key ⟨s, now⟩
  · have hother : ∀ s, answer = .found s → s.key ≠ key := fun s hs hkey => hfound ⟨s, hs, hkey⟩
    obtain ⟨figures, hfigures⟩ := settle_other r o now hother
    rw [hfigures]
    exact h.counted figures

/-- **What one answer does to a copy** that is there afterwards: it was there before, and no other
was fetched for its entity, or else it is of the snapshot that was fetched. -/
theorem copy?_settle (h : r.Orderly o.fallbackCapacity.toNat)
    (hcopy : (r.settle o key now answer).resolver.copy? other = some copy) :
    (answer = .found copy.snapshot ∧ copy.snapshot.key = key ∧ key = other) ∨
      r.copy? other = some copy ∧ (key = other → ∀ s, answer = .found s → s.key ≠ key) := by
  by_cases hfound : ∃ s, answer = .found s ∧ s.key = key
  · obtain ⟨s, rfl, hs⟩ := hfound
    rw [settle_found hs] at hcopy
    have hwhich := (h.counted _).copy?_remember hcopy
    by_cases hkey : key = other
    · rw [if_pos hkey] at hwhich
      subst hwhich
      exact .inl ⟨rfl, hs, hkey⟩
    · rw [if_neg hkey] at hwhich
      exact .inr ⟨hwhich, fun h => absurd h hkey⟩
  · have hother : ∀ s, answer = .found s → s.key ≠ key := fun s hs hkey => hfound ⟨s, hs, hkey⟩
    unfold copy? at hcopy ⊢
    rw [copies_settle hother] at hcopy
    exact .inr ⟨hcopy, fun _ => hother⟩

theorem exists_copy_of_hot? {s : Snapshot} (h : r.hot? o key now = some s) :
    ∃ copy, r.copy? key = some copy ∧ copy.snapshot = s := by
  unfold hot? at h
  cases hcopy : r.copy? key with
  | some copy =>
    rw [hcopy] at h
    dsimp only at h
    split at h
    · exact ⟨copy, rfl, Option.some.inj h⟩
    · cases h
  | none =>
    rw [hcopy] at h
    cases h

end Resolver

/-! ## Engines -/

/-- An engine of some options that has its copies in good order. -/
structure Engine.Tidy (o : Options) (e : Engine) : Prop where
  options : e.options = o
  orderly : e.resolver.Orderly o.fallbackCapacity.toNat

namespace Engine

open Call

variable {σ : Type} {o : Options}

theorem stable_tidy (o : Options) : Stable (Tidy o) where
  counted _ _ h := ⟨h.options, h.orderly⟩
  numbered _ _ h := ⟨h.options, h.orderly⟩
  hit _ h := ⟨h.options, h.orderly.counted _⟩
  settled e _ key now answer h h' := by
    obtain ⟨rfl, horderly⟩ := h
    exact ⟨h'.options, horderly.settle key now answer⟩

theorem tidy_of_empty {e : Engine} (h : e.resolver = .empty) : e.Tidy e.options := by
  refine ⟨rfl, ?_⟩
  rw [h]
  exact ⟨List.nodup_nil, Nat.zero_le _, rfl⟩

/-- After a context was looked up, with whatever came of it. -/
theorem engine_resolve (out : Surroundings σ) (key : ContextKey) (now : Int64) (w : World σ) :
    ((resolve out key now).run.run w).2.engine =
      match w.engine.resolver.hot? w.engine.options key now with
      | some _ => { w.engine with resolver := w.engine.resolver.countHit }
      | none => { w.engine with resolver := (settled out key now w).resolver } := by
  cases hhot : w.engine.resolver.hot? w.engine.options key now with
  | some s => rw [run_resolve_hot hhot]
  | none => rw [run_resolve_cold hhot]

end Engine

/-! ## Histories of a resolver -/

/-- Something that happens to a resolver: a change of what is outside, a context that is asked for,
or a copy that is not to be used any more. -/
inductive Lookup (σ : Type)
  | outside (f : σ → σ)
  | resolve (key : ContextKey) (now : Int64)
  | invalidate (key : ContextKey)

/-- What it is among everything that happens to an engine. -/
def Lookup.use {σ : Type} : Lookup σ → Use σ
  | outside f => .outside f
  | resolve key now => .resolve key now
  | invalidate key => .invalidate key

namespace World

variable {σ : Type}

/-- The world after a lookup, whatever it ended with. -/
def lookedUp (out : Surroundings σ) (w : World σ) (l : Lookup σ) : World σ := w.used out l.use

/-- The world after a history of lookups. -/
def lookedUpAll (out : Surroundings σ) (w : World σ) (history : List (Lookup σ)) : World σ :=
  history.foldl (lookedUp out) w

theorem lookedUpAll_append (out : Surroundings σ) (w : World σ) (front back : List (Lookup σ)) :
    w.lookedUpAll out (front ++ back) = (w.lookedUpAll out front).lookedUpAll out back :=
  List.foldl_append

end World

namespace Lookup

variable {σ : Type}

/-- A lookup fetches a snapshot: there is no recent copy, and the source answers with a snapshot of
the entity that is asked for. -/
def Fetches (out : Surroundings σ) (w : World σ) (key : ContextKey) (s : Snapshot)
    (l : Lookup σ) : Prop :=
  ∃ now, l = .resolve key now ∧ w.engine.resolver.hot? w.engine.options key now = none ∧
    (out.fetch key w.outside).1 = .found s ∧ s.key = key

/-- A lookup drops the copy of an entity: because it is told to, or to make room for others. -/
def Drops (out : Surroundings σ) (w : World σ) (key : ContextKey) (l : Lookup σ) : Prop :=
  l = .invalidate key ∨ (w.engine.resolver.copy? key).isSome ∧
    (w.lookedUp out l).engine.resolver.copy? key = none

end Lookup

namespace World

open Engine

variable {σ : Type} {out : Surroundings σ} {w : World σ} {o : Options} {key : ContextKey}
  {s : Snapshot} {copy : LocalCopy} {l : Lookup σ} {history : List (Lookup σ)}

/-- In a history, a snapshot is the last one that was fetched for an entity, and its copy was not
dropped since. -/
def LastFetched (out : Surroundings σ) (w : World σ) (history : List (Lookup σ))
    (key : ContextKey) (s : Snapshot) : Prop :=
  ∃ before l after, history = before ++ l :: after ∧
    l.Fetches out (w.lookedUpAll out before) key s ∧
    ∀ since l' rest, after = since ++ l' :: rest →
      ¬ l'.Drops out (w.lookedUpAll out (before ++ l :: since)) key ∧
      ∀ s', ¬ l'.Fetches out (w.lookedUpAll out (before ++ l :: since)) key s'

theorem LastFetched.key_eq (h : LastFetched out w history key s) : s.key = key := by
  obtain ⟨before, l, after, -, ⟨now, -, -, -, hs⟩, -⟩ := h
  exact hs

/-- A lookup that neither drops the copy nor fetches another makes no difference to what was fetched
last. -/
theorem LastFetched.append (h : LastFetched out w history key s)
    (hdrops : ¬ l.Drops out (w.lookedUpAll out history) key)
    (hfetches : ∀ s', ¬ l.Fetches out (w.lookedUpAll out history) key s') :
    LastFetched out w (history ++ [l]) key s := by
  obtain ⟨before, first, after, rfl, hfirst, hsince⟩ := h
  refine ⟨before, first, after ++ [l], by simp, hfirst, fun since l' rest hsplit => ?_⟩
  rcases List.eq_nil_or_concat rest with rfl | ⟨rest, last, rfl⟩
  · obtain ⟨rfl, hlast⟩ := List.append_inj' hsplit rfl
    cases hlast
    exact ⟨hdrops, hfetches⟩
  · rw [List.concat_eq_append, ← List.cons_append, ← List.append_assoc] at hsplit
    exact hsince since l' rest (List.append_inj' hsplit rfl).1

theorem tidy_lookedUp (h : w.engine.Tidy o) (l : Lookup σ) : (w.lookedUp out l).engine.Tidy o := by
  cases l with
  | outside f => exact h
  | resolve key now => exact (stable_tidy o).resolve out key now w h
  | invalidate key => exact ⟨h.options, h.orderly.invalidate key⟩

theorem tidy_lookedUpAll (h : w.engine.Tidy o) (history : List (Lookup σ)) :
    (w.lookedUpAll out history).engine.Tidy o := by
  induction history generalizing w with
  | nil => exact h
  | cons l rest ih => exact ih (tidy_lookedUp h l)

/-- **What one lookup does to a copy** that is there afterwards: it was there before, and the lookup
neither drops it nor fetches another, or else the lookup fetches just this snapshot. -/
theorem copy?_lookedUp (h : w.engine.Tidy o)
    (hcopy : (w.lookedUp out l).engine.resolver.copy? key = some copy) :
    l.Fetches out w key copy.snapshot ∨ w.engine.resolver.copy? key = some copy ∧
      ¬ l.Drops out w key ∧ ∀ s, ¬ l.Fetches out w key s := by
  have hstays : l ≠ .invalidate key → ¬ l.Drops out w key := by
    rintro hl (hinvalidates | ⟨-, hnone⟩)
    · exact hl hinvalidates
    · cases hcopy.symm.trans hnone
  cases l with
  | outside f =>
    refine .inr ⟨hcopy, hstays (by rintro ⟨⟩), ?_⟩
    rintro s ⟨_, hl, -⟩
    cases hl
  | invalidate other =>
    have hfound : (w.engine.resolver.invalidate other).copy? key = some copy := hcopy
    rw [Resolver.copy?, Resolver.copies_invalidate, Keyed.find?_remove] at hfound
    split at hfound
    · cases hfound
    · rename_i hother
      refine .inr ⟨hfound, hstays ?_, ?_⟩
      · rintro ⟨⟩
        exact hother rfl
      · rintro s ⟨_, hl, -⟩
        cases hl
  | resolve other now =>
    have hkept := hstays (by rintro ⟨⟩)
    have hengine : (w.lookedUp out (.resolve other now)).engine = _ := engine_resolve out other now w
    rw [hengine] at hcopy
    cases hhot : w.engine.resolver.hot? w.engine.options other now with
    | some recent =>
      rw [hhot] at hcopy
      refine .inr ⟨hcopy, hkept, ?_⟩
      rintro s ⟨_, ⟨⟩, hcold, -⟩
      cases hhot.symm.trans hcold
    | none =>
      rw [hhot] at hcopy
      rcases Resolver.copy?_settle (h.options ▸ h.orderly) hcopy with
        ⟨hanswer, hown, rfl⟩ | ⟨hbefore, hother⟩
      · exact .inl ⟨now, rfl, hhot, hanswer, hown⟩
      · refine .inr ⟨hbefore, hkept, ?_⟩
        rintro s ⟨_, ⟨⟩, -, hanswer, hown⟩
        exact hother rfl s hanswer hown

/-- **Every copy is of the snapshot that was fetched last** for its entity. -/
theorem lastFetched_of_copy (hempty : w.engine.resolver = .empty) (history : List (Lookup σ))
    (hcopy : (w.lookedUpAll out history).engine.resolver.copy? key = some copy) :
    LastFetched out w history key copy.snapshot := by
  induction history using List.reverseRecOn with
  | nil =>
    change w.engine.resolver.copy? key = some copy at hcopy
    rw [hempty] at hcopy
    cases hcopy
  | append_singleton history l ih =>
    rw [lookedUpAll_append] at hcopy
    rcases copy?_lookedUp (tidy_lookedUpAll (tidy_of_empty hempty) history) hcopy with
      hfetches | ⟨hbefore, hdrops, hfetches⟩
    · refine ⟨history, l, [], rfl, hfetches, fun since l' rest hsplit => ?_⟩
      cases since <;> cases hsplit
    · exact (ih hbefore).append hdrops hfetches

end World

namespace Engine

open Call World

variable {σ : Type} {out : Surroundings σ} {w v : World σ} {key : ContextKey} {now : Int64}
  {c : ResolvedContext}

/-- **Contexts stay with their entities.**  Whatever a source answers, after any history of a
resolver that began without copies, the snapshot of a context that is resolved is of the entity
that is asked for; there is none just where the context fails closed; and a snapshot that is not
fetched on the spot is the last one that was fetched for the entity, with its copy neither
invalidated nor crowded out since. -/
theorem resolves_own_entity (hempty : w.engine.resolver = .empty) (history : List (Lookup σ))
    (h : Returns (resolve out key now) (w.lookedUpAll out history) c v) :
    (∀ s, c.snapshot = some s → s.key = key) ∧
      (c.snapshot = none ↔ c.origin = .failClosed) ∧
      (c.origin = .hotCache ∨ c.origin = .staleFallback →
        ∃ s, c.snapshot = some s ∧ LastFetched out w history key s) := by
  have hlast : ∀ copy, (w.lookedUpAll out history).engine.resolver.copy? key = some copy →
      LastFetched out w history key copy.snapshot := fun copy => lastFetched_of_copy hempty history
  rcases returns_resolve.1 h with ⟨s, hhot, rfl, -⟩ | ⟨-, hresult, -⟩
  · obtain ⟨copy, hcopy, rfl⟩ := Resolver.exists_copy_of_hot? hhot
    have hfetched := hlast copy hcopy
    refine ⟨?_, by simp, fun _ => ⟨_, rfl, hfetched⟩⟩
    rintro _ ⟨⟩
    exact hfetched.key_eq
  · cases Resolver.settles_of_ok hresult with
    | fetched s _ own =>
      refine ⟨?_, by simp, by simp⟩
      rintro _ ⟨⟩
      exact own
    | anonymous notes _ =>
      refine ⟨?_, by simp, by simp⟩
      rintro _ ⟨⟩
      rfl
    | stale copy kept notes _ =>
      have hfetched := hlast copy kept
      refine ⟨?_, by simp, fun _ => ⟨_, rfl, hfetched⟩⟩
      rintro _ ⟨⟩
      exact hfetched.key_eq
    | nowhere notes _ => exact ⟨by simp, by simp, by simp⟩

/-- A source that answers by a script, whoever is asked for. -/
def scripted : Surroundings (List FetchAnswer) where
  fetch _ script := (script.headD .missing, script.tail)
  rehydrate _ script := script
  archived? _ _ _ := none
  sink _ script := (.ok (), script)

/-- A version of what is known about an entity of a tenant. -/
def sampleVersion (tenant entity version : String) : Snapshot :=
  { Snapshot.anonymous ⟨utf8 tenant, utf8 entity⟩ .empty with id := utf8 version, isDefault := false }

/-- An engine with room for one copy, and a source that begins with a snapshot of another tenant
and ends by being out of reach. -/
def sampleWorld : World (List FetchAnswer) where
  engine := .start { Options.standard with fallbackCapacity := 1 } .empty 0
  outside := [.found (sampleVersion "shop" "ann" "1"), .found (sampleVersion "bank" "ann" "1"),
    .found (sampleVersion "bank" "bob" "1"), .found (sampleVersion "bank" "ann" "2"),
    .found (sampleVersion "bank" "bob" "2"), .unavailable (utf8 "down")]
  warnings := []

/-- Ann is asked for before and after Bob, and once more when her copy is not recent any longer. -/
def sampleLookups : List (Lookup (List FetchAnswer)) :=
  let ann := ⟨utf8 "bank", utf8 "ann"⟩
  let bob := ⟨utf8 "bank", utf8 "bob"⟩
  [.resolve ann 0, .resolve ann 0, .resolve bob 0, .resolve ann 0, .invalidate bob,
    .resolve ann 250000000]

theorem resolves_own_entity_sample : sampleWorld.engine.resolver = .empty ∧
    ∃ c v, Returns (resolve scripted ⟨utf8 "bank", utf8 "ann"⟩ 250000000)
        (sampleWorld.lookedUpAll scripted sampleLookups) c v ∧
      c.origin = .staleFallback ∧ c.snapshot = some (sampleVersion "bank" "ann" "2") ∧
      LastFetched scripted sampleWorld sampleLookups ⟨utf8 "bank", utf8 "ann"⟩
        (sampleVersion "bank" "ann" "2") := by
  have hempty : sampleWorld.engine.resolver = .empty := rfl
  obtain ⟨c, v, hreturns, horigin, hsnapshot⟩ : ∃ c v,
      Returns (resolve scripted ⟨utf8 "bank", utf8 "ann"⟩ 250000000)
        (sampleWorld.lookedUpAll scripted sampleLookups) c v ∧
      c.origin = .staleFallback ∧ c.snapshot = some (sampleVersion "bank" "ann" "2") :=
    ⟨_, _, rfl, rfl, rfl⟩
  obtain ⟨-, -, hcopy⟩ := resolves_own_entity hempty sampleLookups hreturns
  obtain ⟨s, hs, hlast⟩ := hcopy (.inr horigin)
  obtain rfl := Option.some.inj (hsnapshot.symm.trans hs)
  exact ⟨hempty, c, v, hreturns, horigin, hsnapshot, hlast⟩

end Engine
end DecisionEngine
