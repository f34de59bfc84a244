import DecisionEngine.Proofs.Engine.Copies
/-!
# The first copy in is the first copy out

A resolver keeps a copy for each of a limited number of entities.  Which of them has to go when
there are too many is decided by a queue of their own: an entity joins it at the back when it gets
a copy, stays where it is when a newer snapshot takes the place of an older one, and leaves it with
its copy. Whatever a history of lookups was, the queue is therefore in the order in which the
entities came to have the copies that they have.

* `World.Entered` — when an entity came to have the copy that it has at the end of a history.
* `World.resolver_lookedUp` — what a lookup does to a resolver.
* `World.pairwise_entered` — the queue is in the order in which its entities came in.
* `World.first_in_first_out` — how many copies there are after any history, and which goes next.
-/

namespace DecisionEngine

/-! ## A copy that is stored -/

namespace Resolver

variable {r : Resolver} {key other : ContextKey} {copy : LocalCopy} {capacity : Nat}

theorem Orderly.length_order_le (h : r.Orderly capacity) : r.order.length ≤ capacity := by
  rw [h.queued, List.length_map]
  exact h.bounded

/-- An entity that has a copy keeps its place in the queue; another one joins it, and where it is
too long, those at the front leave. -/
theorem Orderly.order_remember (h : r.Orderly capacity) (hroom : capacity ≠ 0) :
    (r.remember capacity key copy).order = if key ∈ r.order then r.order
      else r.order.drop (r.order.length + 1 - capacity) ++ [key] := by
  have hkeys := Keyed.map_fst_assign key copy r.copies
  have hlength := congrArg List.length hkeys
  have horder : (r.remember capacity key copy).order =
      (Keyed.latest capacity (Keyed.assign key copy r.copies)).map (·.1) := by
    rw [h.remember_eq hroom]
  rw [horder, h.queued, Keyed.latest, List.map_drop, hkeys]
  rw [List.length_map] at hlength
  by_cases hkey : key ∈ r.copies.map (·.1)
  · have hfits : (Keyed.assign key copy r.copies).length - capacity = 0 := by
      rw [Keyed.length_assign_of_mem copy hkey]
      exact Nat.sub_eq_zero_of_le h.bounded
    rw [if_pos hkey, if_pos hkey, hfits, List.drop_zero]
  · rw [if_neg hkey, List.length_append, List.length_singleton] at hlength
    have hbounded := h.queued ▸ h.length_order_le
    rw [if_neg hkey, if_neg hkey, hlength, List.drop_append_of_le_length (by omega)]

/-- A copy for an entity that has one takes its place. -/
theorem Orderly.remember_known (h : r.Orderly capacity) (hkey : (r.copy? key).isSome) :
    r.remember capacity key copy = { r with copies := Keyed.assign key copy r.copies } := by
  have hroom : capacity ≠ 0 := by
    intro hzero
    have hnone := h.bounded
    rw [hzero, Nat.le_zero, List.length_eq_zero_iff] at hnone
    rw [copy?, hnone] at hkey
    cases hkey
  unfold Resolver.remember
  rw [if_neg hroom]
  exact if_pos hkey

end Resolver

namespace World

open Engine Resolver

variable {σ : Type} {out : Surroundings σ} {w : World σ} {o : Options} {key other : ContextKey}
  {s : Snapshot} {l : Lookup σ} {history : List (Lookup σ)} {m n : Nat}

/-! ## One lookup -/

/-- A lookup that fetches a snapshot stores a copy of it. -/
theorem resolver_of_fetches (h : l.Fetches out w key s) : ∃ figures now,
    (w.lookedUp out l).engine.resolver = Resolver.remember
      { w.engine.resolver with figures := figures } w.engine.options.fallbackCapacity.toNat key
      ⟨s, now⟩ := by
  obtain ⟨now, rfl, hcold, hanswer, hown⟩ := h
  let figures := w.engine.resolver.figures
  refine ⟨{ figures with sharedFetches := figures.sharedFetches + 1 }, now, ?_⟩
  rw [show (w.lookedUp out (.resolve key now)).engine = _ from engine_resolve out key now w, hcold]
  dsimp only
  unfold settled
  rw [hanswer, settle_found hown]
  rfl

/-- **What a lookup does to a resolver**: it stores a copy of the snapshot that it fetches, or drops
the copy of an entity that it is told to, or makes a difference to the figures only. -/
theorem resolver_lookedUp (out : Surroundings σ) (w : World σ) (l : Lookup σ) :
    (∃ key s, l.Fetches out w key s) ∨
      (∃ key, l = .invalidate key ∧
        (w.lookedUp out l).engine.resolver = w.engine.resolver.invalidate key) ∨
      ∃ figures, (w.lookedUp out l).engine.resolver =
        { w.engine.resolver with figures := figures } := by
  cases l with
  | outside f => exact .inr (.inr ⟨_, rfl⟩)
  | invalidate key => exact .inr (.inl ⟨key, rfl, rfl⟩)
  | resolve key now =>
    have hengine : (w.lookedUp out (.resolve key now)).engine = _ := engine_resolve out key now w
    cases hhot : w.engine.resolver.hot? w.engine.options key now with
    | some recent =>
      rw [hhot] at hengine
      rw [hengine]
      exact .inr (.inr ⟨_, rfl⟩)
    | none =>
      by_cases hfound : ∃ s, (out.fetch key w.outside).1 = .found s ∧ s.key = key
      · obtain ⟨s, hanswer, hown⟩ := hfound
        exact .inl ⟨key, s, now, rfl, hhot, hanswer, hown⟩
      · rw [hhot] at hengine
        rw [hengine]
        exact .inr (.inr (settle_other _ _ _ fun s hs hown => hfound ⟨s, hs, hown⟩))

/-- What is in the queue after a lookup was there before, in the same order, or is behind it. -/
theorem order_lookedUp_sublist (out : Surroundings σ) (h : w.engine.Tidy o) (l : Lookup σ) :
    ∃ new : Option ContextKey,
      (w.lookedUp out l).engine.resolver.order.Sublist (w.engine.resolver.order ++ new.toList) ∧
      ∀ key ∈ new, key ∉ w.engine.resolver.order := by
  obtain ⟨rfl, h⟩ := h
  rcases resolver_lookedUp out w l with ⟨key, s, hfetches⟩ | ⟨key, -, hr⟩ | ⟨figures, hr⟩
  · obtain ⟨figures, now, hr⟩ := resolver_of_fetches hfetches
    rw [hr]
    by_cases hroom : w.engine.options.fallbackCapacity.toNat = 0
    · refine ⟨none, ?_, by simp⟩
      unfold Resolver.remember
      rw [if_pos hroom]
      simp
    · rw [(h.counted figures).order_remember hroom]
      by_cases hkey : key ∈ w.engine.resolver.order
      · refine ⟨none, ?_, by simp⟩
        rw [if_pos hkey]
        simp
      · refine ⟨some key, ?_, by simpa using hkey⟩
        rw [if_neg hkey]
        exact (List.drop_sublist ..).append_right _
  · refine ⟨none, ?_, by simp⟩
    rw [hr]
    unfold Resolver.invalidate
    split
    · simp
    · simpa using List.erase_sublist
  · refine ⟨none, ?_, by simp⟩
    rw [hr]
    simp

/-- **Which copy is crowded out**: the one at the front of the queue, and no other. -/
theorem order_of_evicted (h : w.engine.Tidy o) (hbefore : key ∈ w.engine.resolver.order)
    (hafter : key ∉ (w.lookedUp out l).engine.resolver.order) (hl : l ≠ .invalidate key) :
    ∃ rest new, w.engine.resolver.order = key :: rest ∧
      (w.lookedUp out l).engine.resolver.order = rest ++ [new] := by
  obtain ⟨rfl, h⟩ := h
  rcases resolver_lookedUp out w l with ⟨new, s, hfetches⟩ | ⟨other, rfl, hr⟩ | ⟨figures, hr⟩
  · obtain ⟨figures, now, hr⟩ := resolver_of_fetches hfetches
    rw [hr] at hafter ⊢
    have hroom : w.engine.options.fallbackCapacity.toNat ≠ 0 := by
      intro hzero
      unfold Resolver.remember at hafter
      rw [if_pos hzero] at hafter
      exact hafter hbefore
    rw [(h.counted figures).order_remember hroom] at hafter ⊢
    by_cases hknown : new ∈ w.engine.resolver.order
    · rw [if_pos hknown] at hafter
      exact absurd hbefore hafter
    · rw [if_neg hknown] at hafter ⊢
      have hlong := h.length_order_le
      obtain ⟨first, rest, hqueue⟩ := List.exists_cons_of_ne_nil (List.ne_nil_of_mem hbefore)
      rw [hqueue] at hbefore hafter hlong ⊢
      rw [List.length_cons] at hafter hlong ⊢
      rcases Nat.lt_or_ge (rest.length + 1) w.engine.options.fallbackCapacity.toNat with hlt | hfull
      · rw [Nat.sub_eq_zero_of_le (by omega), List.drop_zero] at hafter
        exact absurd (List.mem_append_left _ hbefore) hafter
      · rw [show rest.length + 1 + 1 - w.engine.options.fallbackCapacity.toNat = 1 by omega,
          List.drop_succ_cons, List.drop_zero] at hafter ⊢
        have hrest : key ∉ rest := fun hmem => hafter (List.mem_append_left _ hmem)
        rw [(List.mem_cons.1 hbefore).resolve_right hrest]
        exact ⟨rest, new, rfl, rfl⟩
  · rw [hr] at hafter
    unfold Resolver.invalidate at hafter
    have hother : key ≠ other := fun heq => hl (heq ▸ rfl)
    split at hafter
    · exact absurd hbefore hafter
    · exact absurd ((List.mem_erase_of_ne hother).2 hbefore) hafter
  · rw [hr] at hafter
    exact absurd hbefore hafter

/-- A snapshot that is fetched for an entity that has a copy takes the place of that copy. -/
theorem resolver_of_refetched (h : w.engine.Tidy o) (hfetches : l.Fetches out w key s)
    (hknown : (w.engine.resolver.copy? key).isSome) :
    (w.lookedUp out l).engine.resolver.order = w.engine.resolver.order ∧
      ((w.lookedUp out l).engine.resolver.copy? key).map (·.snapshot) = some s ∧
      ∀ other, other ≠ key →
        (w.lookedUp out l).engine.resolver.copy? other = w.engine.resolver.copy? other := by
  obtain ⟨rfl, h⟩ := h
  obtain ⟨figures, now, hr⟩ := resolver_of_fetches hfetches
  rw [(h.counted figures).remember_known hknown] at hr
  rw [hr]
  unfold Resolver.copy?
  refine ⟨rfl, ?_, fun other hother => ?_⟩
  · rw [Keyed.find?_assign, if_pos rfl]
    rfl
  · rw [Keyed.find?_assign, if_neg hother.symm]

/-- An entity that has no copy joins the queue. -/
theorem order_of_joining (h : w.engine.Tidy o) (hfetches : l.Fetches out w key s)
    (hunknown : w.engine.resolver.copy? key = none) (hroom : o.fallbackCapacity ≠ 0) :
    (w.lookedUp out l).engine.resolver.order = w.engine.resolver.order.drop
      (w.engine.resolver.order.length + 1 - o.fallbackCapacity.toNat) ++ [key] := by
  obtain ⟨rfl, h⟩ := h
  obtain ⟨figures, now, hr⟩ := resolver_of_fetches hfetches
  have hnew : key ∉ w.engine.resolver.order := by
    rw [h.mem_order_iff, hunknown]
    simp
  have hpos : w.engine.options.fallbackCapacity.toNat ≠ 0 := fun hzero =>
    hroom (UInt64.toNat_inj.1 hzero)
  rw [hr, (h.counted figures).order_remember hpos]
  exact if_neg hnew

/-! ## Histories -/

/-- Whether an entity has a copy after a history. -/
def Holds (out : Surroundings σ) (w : World σ) (history : List (Lookup σ)) (key : ContextKey) :
    Prop := ((w.lookedUpAll out history).engine.resolver.copy? key).isSome

/-- The number of the lookup by which an entity came to have the copy that it has at the end of a
history: there was none before it, and since then there always was one. -/
def Entered (out : Surroundings σ) (w : World σ) (history : List (Lookup σ)) (key : ContextKey)
    (n : Nat) : Prop :=
  n < history.length ∧ ¬Holds out w (history.take n) key ∧
    ∀ m, n < m → m ≤ history.length → Holds out w (history.take m) key

theorem holds_iff (hempty : w.engine.resolver = .empty) (history : List (Lookup σ)) :
    Holds out w history key ↔ key ∈ (w.lookedUpAll out history).engine.resolver.order :=
  (tidy_lookedUpAll (tidy_of_empty hempty) history).orderly.mem_order_iff.symm

/-- An entity that still has its copy after another lookup came to have it when it did. -/
theorem Entered.append (h : Entered out w history key n)
    (hholds : Holds out w (history ++ [l]) key) : Entered out w (history ++ [l]) key n := by
  obtain ⟨hn, habsent, hsince⟩ := h
  refine ⟨by simp; omega, by rwa [List.take_append_of_le_length (by omega)], fun m hm hle => ?_⟩
  rcases Nat.lt_or_ge history.length m with hlast | hearlier
  · rwa [List.take_of_length_le (by simp; omega)]
  · rw [List.take_append_of_le_length hearlier]
    exact hsince m hm hearlier

/-- An entity that gets a copy by the last lookup came in with it. -/
theorem Entered.last (habsent : ¬Holds out w history key)
    (hholds : Holds out w (history ++ [l]) key) :
    Entered out w (history ++ [l]) key history.length := by
  refine ⟨by simp, by simpa using habsent, fun m hm hle => ?_⟩
  rwa [List.take_of_length_le (by simp; omega)]

/-- Before the last lookup, an entity that had a copy came to have it when it did; one that had none
came in with that lookup. -/
theorem Entered.of_append (h : Entered out w (history ++ [l]) key n) :
    (Holds out w history key → Entered out w history key n) ∧
      (¬Holds out w history key → n = history.length) := by
  obtain ⟨hn, habsent, hsince⟩ := h
  rw [List.length_append, List.length_singleton] at hn
  rcases Nat.lt_or_ge n history.length with hlt | hge
  · rw [List.take_append_of_le_length (by omega)] at habsent
    have hearlier : ∀ m, n < m → m ≤ history.length → Holds out w (history.take m) key := by
      intro m hm hle
      have hthen := hsince m hm (by simp; omega)
      rwa [List.take_append_of_le_length hle] at hthen
    refine ⟨fun _ => ⟨hlt, habsent, hearlier⟩, fun hnone => absurd ?_ hnone⟩
    simpa using hearlier history.length hlt (Nat.le_refl _)
  · obtain rfl : n = history.length := by omega
    rw [List.take_left] at habsent
    exact ⟨fun hholds => absurd hholds habsent, fun _ => rfl⟩

/-- Every entity that has a copy came in at some time. -/
theorem exists_entered (hempty : w.engine.resolver = .empty) (history : List (Lookup σ))
    (hholds : Holds out w history key) : ∃ n, Entered out w history key n := by
  induction history using List.reverseRecOn with
  | nil =>
    change (w.engine.resolver.copy? key).isSome at hholds
    rw [hempty] at hholds
    cases hholds
  | append_singleton history l ih =>
    by_cases hbefore : Holds out w history key
    · obtain ⟨n, hn⟩ := ih hbefore
      exact ⟨n, hn.append hholds⟩
    · exact ⟨_, .last hbefore hholds⟩

/-- **The queue is in the order in which its entities came in.** -/
theorem pairwise_entered (out : Surroundings σ) (hempty : w.engine.resolver = .empty)
    (history : List (Lookup σ)) :
    (w.lookedUpAll out history).engine.resolver.order.Pairwise fun a b =>
      ∀ m n, Entered out w history a m → Entered out w history b n → m < n := by
  induction history using List.reverseRecOn with
  | nil =>
    change w.engine.resolver.order.Pairwise _
    rw [hempty]
    exact .nil
  | append_singleton history l ih =>
    rw [lookedUpAll_append]
    obtain ⟨new, hsublist, hnew⟩ := order_lookedUp_sublist out
      (tidy_lookedUpAll (tidy_of_empty hempty) history) l
    refine List.Pairwise.sublist hsublist (List.pairwise_append.2 ⟨?_, ?_, ?_⟩)
    · refine ih.imp_of_mem fun ha hb hab m n hm hn => hab m n ?_ ?_
      · exact hm.of_append.1 ((holds_iff hempty history).2 ha)
      · exact hn.of_append.1 ((holds_iff hempty history).2 hb)
    · cases new with
      | none => exact .nil
      | some key => exact List.pairwise_singleton ..
    · intro a ha b hb m n hm hn
      have hearlier := (hm.of_append.1 ((holds_iff hempty history).2 ha)).1
      have hunknown := hnew b (Option.mem_toList.1 hb)
      rw [hn.of_append.2 fun hholds => hunknown ((holds_iff hempty history).1 hholds)]
      exact hearlier

/-- The copy that is crowded out is that of the entity that came in first, and it is the only one.
-/
theorem entered_of_evicted (hempty : w.engine.resolver = .empty) (history : List (Lookup σ))
    {v : World σ} (hv : v = w.lookedUpAll out history)
    (hbefore : (v.engine.resolver.copy? key).isSome)
    (hafter : (v.lookedUp out l).engine.resolver.copy? key = none) (hl : l ≠ .invalidate key) :
    ∃ n, Entered out w history key n ∧
      ∀ other, other ≠ key → (v.engine.resolver.copy? other).isSome →
        ((v.lookedUp out l).engine.resolver.copy? other).isSome ∧
          ∃ m, Entered out w history other m ∧ n < m := by
  have htidy : v.engine.Tidy w.engine.options :=
    hv ▸ tidy_lookedUpAll (tidy_of_empty hempty) history
  have horderly' : (v.lookedUp out l).engine.resolver.Orderly _ := (tidy_lookedUp htidy l).orderly
  have hentered : ∀ key, (v.engine.resolver.copy? key).isSome →
      ∃ n, Entered out w history key n := by
    intro key hholds
    rw [hv] at hholds
    exact exists_entered hempty history hholds
  have hlost : key ∉ (v.lookedUp out l).engine.resolver.order := by
    rw [horderly'.mem_order_iff, hafter]
    simp
  obtain ⟨rest, new, hqueue, hqueue'⟩ := order_of_evicted htidy
    (htidy.orderly.mem_order_iff.2 hbefore) hlost hl
  obtain ⟨n, hn⟩ := hentered key hbefore
  refine ⟨n, hn, fun other hother hholds => ?_⟩
  obtain ⟨m, hm⟩ := hentered other hholds
  have hrest : other ∈ rest := by
    rw [← htidy.orderly.mem_order_iff, hqueue] at hholds
    exact (List.mem_cons.1 hholds).resolve_left hother
  have hpairwise := pairwise_entered out hempty history
  rw [← hv, hqueue] at hpairwise
  exact ⟨horderly'.mem_order_iff.1 (hqueue' ▸ List.mem_append_left _ hrest), m, hm,
    (List.pairwise_cons.1 hpairwise).1 other hrest n m hn hm⟩

/-- **Copies come and go first in, first out.**  After any history of a resolver that began without
copies, its queue lists the entities that have copies, each once, and they are no more than the
options allow.  An entity that loses its copy by a lookup without being invalidated is the one that
came to have its copy first, and no other loses its copy with it.  A snapshot that is fetched for
an entity that has a copy takes the place of that copy and changes nothing else; an entity that has
none joins the queue at the back, where only the one at the front has to go, if the queue is full.
-/
theorem first_in_first_out (out : Surroundings σ) (hempty : w.engine.resolver = .empty)
    (history : List (Lookup σ)) {v : World σ} (hv : v = w.lookedUpAll out history)
    (l : Lookup σ) :
    (v.engine.resolver.order.Nodup ∧
        (∀ key, key ∈ v.engine.resolver.order ↔ (v.engine.resolver.copy? key).isSome) ∧
        v.engine.resolver.localSize = v.engine.resolver.order.length) ∧
      v.engine.resolver.localSize ≤ w.engine.options.fallbackCapacity.toNat ∧
      (∀ key, (v.engine.resolver.copy? key).isSome →
        (v.lookedUp out l).engine.resolver.copy? key = none → l ≠ .invalidate key →
        ∃ n, Entered out w history key n ∧
          ∀ other, other ≠ key → (v.engine.resolver.copy? other).isSome →
            ((v.lookedUp out l).engine.resolver.copy? other).isSome ∧
              ∃ m, Entered out w history other m ∧ n < m) ∧
      (∀ key s, l.Fetches out v key s → (v.engine.resolver.copy? key).isSome →
        (v.lookedUp out l).engine.resolver.order = v.engine.resolver.order ∧
          ((v.lookedUp out l).engine.resolver.copy? key).map (·.snapshot) = some s ∧
          ∀ other, other ≠ key → (v.lookedUp out l).engine.resolver.copy? other =
            v.engine.resolver.copy? other) ∧
      ∀ key s, l.Fetches out v key s → v.engine.resolver.copy? key = none →
        w.engine.options.fallbackCapacity ≠ 0 →
        (v.lookedUp out l).engine.resolver.order =
          v.engine.resolver.order.drop (v.engine.resolver.order.length + 1 -
            w.engine.options.fallbackCapacity.toNat) ++ [key] := by
  have htidy : v.engine.Tidy w.engine.options :=
    hv ▸ tidy_lookedUpAll (tidy_of_empty hempty) history
  have horderly := htidy.orderly
  refine ⟨⟨?_, fun key => horderly.mem_order_iff, ?_⟩, horderly.bounded,
    fun key => entered_of_evicted hempty history hv, fun key s => resolver_of_refetched htidy,
    fun key s => order_of_joining htidy⟩
  · exact horderly.queued ▸ horderly.distinct
  · rw [horderly.queued, List.length_map]
    rfl

/-- An entity of the bank. -/
def client (name : String) : ContextKey := ⟨utf8 "bank", utf8 name⟩

/-- An engine with room for two copies, and a source that knows three entities, the first of them
also in a later version. -/
def queueSample : World (List FetchAnswer) where
  engine := .start { Options.standard with fallbackCapacity := 2 } .empty 0
  outside := [.found (sampleVersion "bank" "ann" "1"), .found (sampleVersion "bank" "bob" "1"),
    .found (sampleVersion "bank" "ann" "2"), .found (sampleVersion "bank" "eve" "1")]
  warnings := []

/-- Ann and Bob are asked for, and Ann again when her copy is not recent any longer. -/
def queueLookups : List (Lookup (List FetchAnswer)) :=
  [.resolve (client "ann") 0, .resolve (client "bob") 0, .resolve (client "ann") 250000000]

/-- Although Ann was fetched last, it is her copy that has to go when Eve is asked for. -/
theorem first_in_first_out_sample : queueSample.engine.resolver = .empty ∧
    ((queueSample.lookedUpAll scripted queueLookups).lookedUp scripted
      (.resolve (client "eve") 250000000)).engine.resolver.order = [client "bob", client "eve"] ∧
    ∃ n, Entered scripted queueSample queueLookups (client "ann") n ∧
      ∃ m, Entered scripted queueSample queueLookups (client "bob") m ∧ n < m := by
  have hempty : queueSample.engine.resolver = .empty := rfl
  obtain ⟨-, -, hevicted, -, -⟩ := first_in_first_out scripted hempty queueLookups rfl
    (.resolve (client "eve") 250000000)
  obtain ⟨n, hn, hothers⟩ := hevicted (client "ann") (by decide) (by decide) (by rintro ⟨⟩)
  obtain ⟨-, hm⟩ := hothers (client "bob") (by decide) (by decide)
  exact ⟨hempty, by decide, n, hn, hm⟩

end World
end DecisionEngine
