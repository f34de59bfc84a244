import DecisionEngine.Proofs.Blueprint.RoundTrip
/-!
# Numbers of nodes in a blueprint that was read

Whatever the bytes of a blueprint are, the numbers by which its steps address nodes are numbers of
nodes that were read: a reader of a number of a node refuses any other one, and the readers of
branches, pairs and steps get their numbers from there.

* `Reader.Gives` — whatever a reader reads has some property.
* `Blueprint.closed_of_decode` — the nodes that the steps of a blueprint address are there.
-/

namespace DecisionEngine

namespace Wire
namespace Reader

variable {α β : Type} {P : α → Prop} {Q : β → Prop} {count : Nat}

/-! ## Readers and what they read -/

/-- Whatever a reader reads has a property. -/
def Gives (P : α → Prop) (r : Reader α) : Prop := ∀ c x c', r c = .ok (x, c') → P x

theorem gives_any (r : Reader α) : Gives (fun _ => True) r := fun _ _ _ _ => trivial

theorem gives_pure {x : α} (h : P x) : Gives P (pure x) := by
  intro c y c' hrun
  cases hrun
  exact h

theorem gives_failAt (at_ : Nat) (cause : Cause) : Gives P (failAt at_ cause : Reader α) := by
  intro c x c' hrun
  cases hrun

theorem gives_ite {p : Prop} [Decidable p] {r r' : Reader α} (h : p → Gives P r)
    (h' : ¬p → Gives P r') : Gives P (if p then r else r') := by
  by_cases hp : p
  · rw [if_pos hp]
    exact h hp
  · rw [if_neg hp]
    exact h' hp

theorem Gives.bind {r : Reader α} {f : α → Reader β} (h : Gives P r)
    (hf : ∀ x, P x → Gives Q (f x)) : Gives Q (r >>= f) := by
  intro c y c' hrun
  obtain ⟨⟨x, d⟩, hx, hy⟩ := bind_eq_ok.1 hrun
  exact hf x (h c x d hx) d y c' hy

/-- What is read without a look at it does not matter. -/
theorem gives_bind {r : Reader α} {f : α → Reader β} (hf : ∀ x, Gives Q (f x)) :
    Gives Q (r >>= f) := (gives_any r).bind fun x _ => hf x

theorem gives_times {item : Reader α} (h : Gives P item) (n : Nat) :
    Gives (fun xs => ∀ x ∈ xs, P x) (times n item) := by
  induction n with
  | zero => exact gives_pure fun _ hx => absurd hx List.not_mem_nil
  | succ n ih =>
    exact h.bind fun x hx => ih.bind fun xs hxs => gives_pure (List.forall_mem_cons.2 ⟨hx, hxs⟩)

theorem gives_list {item : Reader α} (h : Gives P item) :
    Gives (fun xs => ∀ x ∈ xs, P x) (list item) := gives_bind fun _ => gives_times h _

/-! ## Numbers of nodes -/

theorem gives_nodeIndex : Gives (· < count) (nodeIndex count) :=
  gives_bind fun _ => gives_bind fun n => gives_ite (fun _ => gives_failAt _ _) fun h =>
    gives_pure (by omega)

theorem gives_branch : Gives (fun b => b.node < count) (branch count) :=
  gives_bind fun _ => gives_nodeIndex.bind fun _ hnode => gives_bind fun _ => gives_bind fun _ =>
    gives_bind fun _ => gives_bind fun _ => gives_bind fun _ => gives_pure hnode

theorem gives_dominance : Gives (fun d => d.1 < count ∧ d.2 < count) (dominance count) :=
  gives_bind fun _ => gives_nodeIndex.bind fun _ hwinner => gives_nodeIndex.bind fun _ hloser =>
    gives_pure ⟨hwinner, hloser⟩

theorem gives_step : Gives (fun s => (∀ ch ∈ s.choices, ch.1 < count) ∧
    ∀ d ∈ s.dominance, d.1 < count ∧ d.2 < count) (step count) := by
  have hone : ∀ (n : Nat) (g : Guard), n < count → ∀ ch ∈ [(n, g)], ch.1 < count :=
    fun n g hn ch hch => List.mem_singleton.1 hch ▸ hn
  have hnone : ∀ d ∈ ([] : List (Nat × Nat)), d.1 < count ∧ d.2 < count :=
    fun d hd => absurd hd List.not_mem_nil
  refine gives_bind fun _ => gives_bind fun _ => ?_
  refine gives_ite (fun _ => ?_) fun _ => gives_ite (fun _ => ?_) fun _ =>
    gives_ite (fun _ => ?_) fun _ => gives_failAt _ _
  · exact gives_nodeIndex.bind fun n hn => gives_bind fun g => gives_pure ⟨hone n g hn, hnone⟩
  · exact gives_nodeIndex.bind fun n hn => gives_bind fun g => gives_bind fun _ =>
      gives_pure ⟨hone n g hn, hnone⟩
  · refine gives_bind fun _ => gives_bind fun _ => gives_bind fun _ =>
      (gives_list gives_branch).bind fun bs hbs => (gives_list gives_dominance).bind fun ds hds =>
        gives_pure ⟨fun ch hch => ?_, hds⟩
    obtain ⟨b, hb, rfl⟩ := List.mem_map.1 hch
    exact hbs b hb

end Reader
end Wire

namespace Blueprint

open Wire (Reader)

theorem gives_readBack (h : Header) (catalog : Catalog) (bytes : Bytes) :
    Reader.Gives Closed (readBack h catalog bytes) :=
  Reader.gives_bind fun _ => Reader.gives_bind fun _ =>
    (Reader.gives_list Reader.gives_step).bind fun _ hsteps => Reader.gives_bind fun _ =>
      Reader.gives_bind fun _ =>
        Reader.gives_pure ⟨fun step hstep => (hsteps step hstep).1,
          fun step hstep => (hsteps step hstep).2⟩

/-- The nodes that the steps of a blueprint address are there, whatever bytes it was read from. -/
theorem closed_of_decode {bytes : Bytes} {b : Blueprint} (h : decode bytes = .ok b) :
    b.Closed := by
  unfold decode at h
  obtain ⟨⟨⟨header, labels⟩, c⟩, -, h⟩ := bind_eq_ok.1 h
  obtain ⟨catalog, -, h⟩ := bind_eq_ok.1 h
  obtain ⟨⟨_, c'⟩, hback, h⟩ := bind_eq_ok.1 h
  cases h
  exact gives_readBack header catalog bytes c b c' (mapError_eq_ok.1 hback)

end Blueprint
end DecisionEngine
