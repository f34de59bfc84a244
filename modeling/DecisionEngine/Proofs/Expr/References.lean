import DecisionEngine.Expr.Grammar
/-!
# References and their texts

A name that is read as a reference loses its qualifier, and the text of a reference gets one, that
of the context too. So the text reads back as the reference, whichever name it was read from.

* `Reference.Named` — what is known of the name of a reference.
* `Expr.named_of_referenceTo` — references that were read have such names.
* `Expr.qualified_qualifier`, `Expr.qualified_of_bare` — what is left of a name, and its scope.
* `Expr.referenceTo_toText` — the text of a reference reads back as it.
-/

namespace DecisionEngine

/-- A reference whose name is one that references have: not empty, of bytes that names are made
of, and without a dot at its end. -/
structure Reference.Named (r : Reference) : Prop where
  nonempty : r.name ≠ []
  bytes : ∀ b ∈ r.name, Expr.continuesName b = true
  finished : r.name.getLast? ≠ some 46

namespace Expr

/-! ## From a name -/

theorem qualified_spec {name n : Bytes} {scope : Scope} (hname : name ≠ [])
    (h : qualified name = .ok (scope, n)) : n ≠ [] ∧ ∀ b ∈ n, b ∈ name := by
  unfold qualified at h
  dsimp only at h
  split at h
  · cases h
    exact ⟨hname, fun b hb => hb⟩
  · cases h
  · rename_i p hp hfound
    cases h
    refine ⟨fun hn => hp scope (by rw [hn]), fun b hb => ?_⟩
    obtain ⟨s, -, hs⟩ := List.exists_of_findSome?_eq_some hfound
    obtain ⟨n', hn', heq⟩ := Option.map_eq_some_iff.1 hs
    cases heq
    unfold strip? at hn'
    split at hn' <;> cases hn'
    exact List.mem_of_mem_drop hb

theorem named_of_referenceTo {name : Bytes} {position : Nat} {r : Reference} (hname : name ≠ [])
    (hbytes : ∀ b ∈ name, continuesName b = true) (h : referenceTo position name = .ok r) :
    r.Named := by
  unfold referenceTo at h
  split at h
  · cases h
  · rename_i scope n hqualified
    obtain ⟨hn, hmem⟩ := qualified_spec hname hqualified
    split at h
    · cases h
    · rename_i hlast
      cases h
      exact ⟨hn, fun b hb => hbytes b (hmem b hb), hlast⟩

/-! ## From a text -/

section

variable {r : Reference}

/-- No word of the grammar is the text of a reference. -/
theorem toText_ne_of_dot {word : Bytes} (h : 46 ∉ word) : r.toText ≠ word := by
  rintro rfl
  refine h (List.mem_append_left _ ?_)
  cases r.scope <;> decide

theorem strip?_qualifier (scope : Scope) (name : Bytes) :
    strip? scope (scope.qualifier ++ name) = some name := by
  unfold strip?
  rw [if_pos (List.isPrefixOf_iff_prefix.2 (List.prefix_append ..)), List.drop_left]

theorem strip?_of_ne {scope scope' : Scope} (h : scope ≠ scope') (name : Bytes) :
    strip? scope (scope'.qualifier ++ name) = none := by
  cases scope <;> cases scope' <;> first | exact absurd rfl h | rfl

/-- A qualifier is dropped, and must leave something of the name. -/
theorem qualified_qualifier (scope : Scope) (name : Bytes) :
    qualified (scope.qualifier ++ name) =
      if name = [] then .error (.emptyReference scope) else .ok (scope, name) := by
  have hfound : ([Scope.context, Scope.input, Scope.outcome].findSome? fun s =>
      (strip? s (scope.qualifier ++ name)).map fun n => (s, n)) = some (scope, name) := by
    cases scope <;> simp [strip?_qualifier, strip?_of_ne]
  unfold qualified
  dsimp only
  rw [hfound]
  cases name with
  | nil => rfl
  | cons b bs => rfl

/-- A name without a qualifier belongs to the context. -/
theorem qualified_of_bare {name : Bytes} (h : ∀ s : Scope, ¬ s.qualifier <+: name) :
    qualified name = .ok (.context, name) := by
  have hnone : ∀ s, strip? s name = none := fun s =>
    if_neg fun hs => h s (List.isPrefixOf_iff_prefix.1 hs)
  unfold qualified
  simp only [hnone, Option.map_none, List.findSome?_cons, List.findSome?_nil]

theorem qualified_toText (hr : r.Named) : qualified r.toText = .ok (r.scope, r.name) := by
  rw [Reference.toText, qualified_qualifier, if_neg hr.nonempty]

theorem referenceTo_toText (hr : r.Named) (position : Nat) :
    referenceTo position r.toText = .ok ⟨position, r.scope, r.name⟩ := by
  unfold referenceTo
  rw [qualified_toText hr]
  exact if_neg hr.finished

end

end Expr
end DecisionEngine
