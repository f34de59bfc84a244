import DecisionEngine.Graph.Draft
import DecisionEngine.Proofs.Compile.Blame
import DecisionEngine.Proofs.Keyed
/-!
# Drafts stay consistent

A draft keeps its nodes in slots, and an index from ids to slots beside them; nodes come and go,
and edges with them.  Whatever a draft was used for, the index leads to the nodes that are there
and to nothing else.  So no id is used twice, and a revision that is committed can be compiled
without a word about ids.

* `Draft.Edit`, `Draft.editedAll` — what a draft is used for, calls that fail included.
* `Draft.Consistent` — the index and the slots agree; `Consistent.edited` — every edit keeps it so.
* `Draft.ids_edited` — what an edit does to the order of declaration.
* `Draft.count_edges_editedAll` — which edges may be there after a history.
* `Draft.stays_consistent` — what holds of a draft after any history.
-/

namespace DecisionEngine
namespace Draft

/-! ## Histories -/

/-- A call that changes a draft. -/
inductive Edit
  | addNode (n : Node)
  | removeNode (id : Bytes)
  | replaceNode (n : Node)
  | addEdge (e : Edge)
  | removeEdge (e : Edge)
  | addLabel (label : Bytes)
  | setPolicy (policy : SelectionPolicy) (comparator : Bytes)
  | addGuardrail (g : Guardrail)
  | commit
  deriving DecidableEq

/-- The draft after a call, whether it failed or not. -/
def edited (d : Draft) : Edit → Draft
  | .addNode n => ((insertNode n).run.run d).2
  | .removeNode id => (d.removeNode id).2
  | .replaceNode n => (d.replaceNode n).2
  | .addEdge e => d.addEdge e
  | .removeEdge e => (d.removeEdge e).2
  | .addLabel label => match d.addLabel label with
    | .ok (_, d') => d'
    | .error _ => d
  | .setPolicy policy comparator => d.setPolicy policy comparator
  | .addGuardrail g => d.addGuardrail g
  | .commit => d.commit.2

/-- The draft after a history. -/
def editedAll (d : Draft) (edits : List Edit) : Draft := edits.foldl edited d

/-- The ids of the nodes, in the order of declaration. -/
def ids (d : Draft) : List Bytes := d.nodes.map (·.id)

/-- The node in a slot. -/
def nodeAt (d : Draft) (slot : Nat) : Option Node := d.slots[slot]?.join

variable {d : Draft} {n m : Node} {id other : Bytes} {slot place : Nat} {e : Edge}

/-! ## Single calls -/

/-- **When a node is added**: unless it has no id, or that of another one. Then it is put into a new
slot, and else nothing changes. -/
theorem run_insertNode (n : Node) (d : Draft) : (insertNode n).run.run d =
    if n.id = [] then (.error .emptyId, d)
    else if (d.slotOf? n.id).isSome then (.error (.duplicateId n.id), d)
    else (.ok d.slots.length, { d with
      slots := d.slots ++ [some n]
      index := Keyed.assign n.id d.slots.length d.index }) := by
  by_cases hempty : n.id = []
  · simp only [insertNode, hempty, List.isEmpty_nil, if_true]
    rfl
  · -- The second condition is about the state that is read, so it is decided behind that.
    have hget : ∀ f : Draft → ExceptT DraftError (StateM Draft) Nat,
        (get >>= f).run.run d = (f d).run.run d := fun _ => rfl
    by_cases hthere : (d.slotOf? n.id).isSome
    · simp only [insertNode, List.isEmpty_iff, hempty, if_false, hget, hasNode, hthere, if_true]
      rfl
    · simp only [insertNode, List.isEmpty_iff, hempty, if_false, hget, hasNode, hthere]
      rfl

/-- A node that has no id, or that of another one, is refused, and no other. -/
theorem exists_addNode_eq_error_iff :
    (∃ reason, d.addNode n = .error reason) ↔ n.id = [] ∨ (d.slotOf? n.id).isSome := by
  unfold addNode
  rw [run_insertNode]
  by_cases hempty : n.id = []
  · simp [hempty]
  · by_cases hthere : (d.slotOf? n.id).isSome
    · simp [hempty, hthere]
    · simp [hempty, hthere]

/-- A call that refuses a node changes nothing. -/
theorem edited_of_refused (h : ∃ reason, d.addNode n = .error reason) :
    d.edited (.addNode n) = d := by
  unfold edited
  dsimp only
  rw [run_insertNode]
  by_cases hempty : n.id = []
  · rw [if_pos hempty]
  · rw [if_neg hempty, if_pos ((exists_addNode_eq_error_iff.1 h).resolve_left hempty)]

/-- A call that adds a node fails, or puts it into a new slot. -/
theorem edited_addNode (d : Draft) (n : Node) : d.edited (.addNode n) = d ∨
    n.id ≠ [] ∧ d.slotOf? n.id = none ∧ d.edited (.addNode n) = { d with
      slots := d.slots ++ [some n]
      index := Keyed.assign n.id d.slots.length d.index } := by
  by_cases hrefused : ∃ reason, d.addNode n = .error reason
  · exact .inl (edited_of_refused hrefused)
  · rw [exists_addNode_eq_error_iff, not_or] at hrefused
    obtain ⟨hempty, hnew⟩ := hrefused
    refine .inr ⟨hempty, by simpa using hnew, ?_⟩
    unfold edited
    dsimp only
    rw [run_insertNode, if_neg hempty, if_neg hnew]

/-- A call that removes a node does nothing where there is none; else it clears the slot, and takes
the id out of the index and the edges at it away. -/
theorem edited_removeNode (d : Draft) (id : Bytes) : d.edited (.removeNode id) = d ∨
    ∃ place, d.slotOf? id = some place ∧ d.edited (.removeNode id) = { d with
      slots := d.slots.set place none
      index := Keyed.remove id d.index
      edges := d.edges.filter fun e => e.source != id && e.target != id } := by
  unfold edited removeNode
  dsimp only
  cases d.slotOf? id with
  | none => exact .inl rfl
  | some place => exact .inr ⟨place, rfl, rfl⟩

/-- A call that replaces a node does nothing where there is none; else it fills the slot anew. -/
theorem edited_replaceNode (d : Draft) (n : Node) : d.edited (.replaceNode n) = d ∨
    ∃ place, d.slotOf? n.id = some place ∧
      d.edited (.replaceNode n) = { d with slots := d.slots.set place (some n) } := by
  unfold edited replaceNode
  dsimp only
  cases d.slotOf? n.id with
  | none => exact .inl rfl
  | some place => exact .inr ⟨place, rfl, rfl⟩

/-- A label makes a difference to the catalog only. -/
theorem edited_addLabel (d : Draft) (label : Bytes) :
    ∃ catalog, d.edited (.addLabel label) = { d with catalog := catalog } := by
  unfold edited addLabel
  dsimp only
  cases d.catalog.add label with
  | ok added => exact ⟨_, rfl⟩
  | error reason => exact ⟨d.catalog, rfl⟩

/-! ## The index and the slots -/

/-- The index has a slot for each id of a node that is there, namely its slot, and no others; and
every node has an id. -/
structure Consistent (d : Draft) : Prop where
  distinct : Keyed.Distinct d.index
  filed : ∀ id slot, d.slotOf? id = some slot ↔ ∃ n, d.nodeAt slot = some n ∧ n.id = id
  named : ∀ slot n, d.nodeAt slot = some n → n.id ≠ []

theorem join_getElem?_concat (slots : List (Option Node)) (content : Option Node) (slot : Nat) :
    (slots ++ [content])[slot]?.join =
      if slot = slots.length then content else slots[slot]?.join := by
  rcases Nat.lt_trichotomy slot slots.length with hlt | rfl | hgt
  · rw [List.getElem?_append_left hlt, if_neg (by omega)]
  · rw [List.getElem?_concat_length, if_pos rfl]
    rfl
  · rw [List.getElem?_eq_none (by simp; omega), List.getElem?_eq_none (by omega),
      if_neg (by omega)]

theorem lt_of_nodeAt (h : d.nodeAt slot = some n) : slot < d.slots.length := by
  rw [nodeAt, Option.join_eq_some_iff] at h
  exact (List.getElem?_eq_some_iff.1 h).1

theorem join_getElem?_set (h : d.nodeAt place = some n) (content : Option Node) (slot : Nat) :
    (d.slots.set place content)[slot]?.join = if slot = place then content else d.nodeAt slot := by
  by_cases hslot : slot = place
  · rw [if_pos hslot, hslot, List.getElem?_set_self (lt_of_nodeAt h)]
    rfl
  · rw [if_neg hslot, List.getElem?_set_ne (Ne.symm hslot)]
    rfl

namespace Consistent

theorem start (graph tenant decisionType : Bytes) :
    Consistent (Draft.start graph tenant decisionType) where
  distinct := List.nodup_nil
  filed id slot := by simp [Draft.start, slotOf?, Keyed.find?, nodeAt]
  named slot n h := by simp [Draft.start, nodeAt] at h

/-- A node of a new id is added. -/
theorem concat (h : d.Consistent) (hempty : n.id ≠ []) (hnew : d.slotOf? n.id = none) :
    Consistent { d with
      slots := d.slots ++ [some n]
      index := Keyed.assign n.id d.slots.length d.index } := by
  generalize hd' : ({ d with
    slots := d.slots ++ [some n]
    index := Keyed.assign n.id d.slots.length d.index } : Draft) = d'
  have hslotOf : ∀ id, d'.slotOf? id = if n.id = id then some d.slots.length else d.slotOf? id := by
    subst hd'
    exact fun id => Keyed.find?_assign ..
  have hnodeAt : ∀ slot, d'.nodeAt slot =
      if slot = d.slots.length then some n else d.nodeAt slot := by
    subst hd'
    exact join_getElem?_concat d.slots (some n)
  refine ⟨by subst hd'; exact h.distinct.assign _ _, fun id slot => ?_, fun slot m hm => ?_⟩
  · simp only [hslotOf, hnodeAt]
    by_cases hslot : slot = d.slots.length
    · have hnone : d.slotOf? id ≠ some slot := fun hold => by
        obtain ⟨m, hm, -⟩ := (h.filed _ _).1 hold
        exact absurd (lt_of_nodeAt hm) (by omega)
      by_cases hid : n.id = id
      · simp [hid, hslot]
      · simpa [hid, hslot] using hslot ▸ hnone
    · by_cases hid : n.id = id
      · rw [← hid, if_pos rfl, if_neg hslot, ← h.filed, hnew]
        simp [eq_comm, hslot]
      · rw [if_neg hid, if_neg hslot, h.filed]
  · rw [hnodeAt] at hm
    split at hm
    · cases hm
      exact hempty
    · exact h.named slot m hm

/-- A node takes the place of the one with its id. -/
theorem replace (h : d.Consistent) (hplace : d.slotOf? n.id = some place) :
    Consistent { d with slots := d.slots.set place (some n) } := by
  obtain ⟨old, hold, hid⟩ := (h.filed _ _).1 hplace
  generalize hd' : ({ d with slots := d.slots.set place (some n) } : Draft) = d'
  have hslotOf : ∀ id, d'.slotOf? id = d.slotOf? id := by
    subst hd'
    exact fun _ => rfl
  have hnodeAt : ∀ slot, d'.nodeAt slot = if slot = place then some n else d.nodeAt slot := by
    subst hd'
    exact join_getElem?_set hold (some n)
  refine ⟨by subst hd'; exact h.distinct, fun id slot => ?_, fun slot m hm => ?_⟩
  · simp only [hslotOf, hnodeAt, h.filed]
    by_cases hslot : slot = place
    · simp [hslot, hold, hid]
    · rw [if_neg hslot]
  · rw [hnodeAt] at hm
    split at hm
    · cases hm
      exact hid ▸ h.named place old hold
    · exact h.named slot m hm

/-- A node is removed. -/
theorem remove (h : d.Consistent) (hplace : d.slotOf? id = some place) (edges : List Edge) :
    Consistent { d with
      slots := d.slots.set place none
      index := Keyed.remove id d.index
      edges := edges } := by
  obtain ⟨old, hold, hid⟩ := (h.filed _ _).1 hplace
  generalize hd' : ({ d with
    slots := d.slots.set place none
    index := Keyed.remove id d.index
    edges := edges } : Draft) = d'
  have hslotOf : ∀ other, d'.slotOf? other = if id = other then none else d.slotOf? other := by
    subst hd'
    exact fun other => Keyed.find?_remove ..
  have hnodeAt : ∀ slot, d'.nodeAt slot = if slot = place then none else d.nodeAt slot := by
    subst hd'
    exact join_getElem?_set hold none
  refine ⟨by subst hd'; exact h.distinct.remove _, fun other slot => ?_, fun slot m hm => ?_⟩
  · simp only [hslotOf, hnodeAt]
    by_cases hslot : slot = place
    · have hother : id ≠ other → d.slotOf? other ≠ some slot := by
        intro hne hfound
        obtain ⟨m, hm, hmid⟩ := (h.filed _ _).1 hfound
        rw [hslot, hold] at hm
        cases hm
        exact hne (hid.symm.trans hmid)
      by_cases heq : id = other
      · simp [heq, hslot]
      · simpa [heq, hslot] using hslot ▸ hother heq
    · by_cases heq : id = other
      · rw [if_pos heq, if_neg hslot, ← h.filed, ← heq, hplace]
        simpa using Ne.symm hslot
      · rw [if_neg heq, if_neg hslot, h.filed]
  · rw [hnodeAt] at hm
    split at hm
    · cases hm
    · exact h.named slot m hm

/-- Every call keeps the index and the slots in agreement. -/
theorem edited (h : d.Consistent) (edit : Edit) : (d.edited edit).Consistent := by
  cases edit with
  | addNode n =>
    rcases edited_addNode d n with hfailed | ⟨hempty, hnew, hadded⟩
    · rwa [hfailed]
    · rw [hadded]
      exact h.concat hempty hnew
  | removeNode id =>
    rcases edited_removeNode d id with habsent | ⟨place, hplace, hremoved⟩
    · rwa [habsent]
    · rw [hremoved]
      exact h.remove hplace _
  | replaceNode n =>
    rcases edited_replaceNode d n with habsent | ⟨place, hplace, hreplaced⟩
    · rwa [habsent]
    · rw [hreplaced]
      exact h.replace hplace
  | addLabel label =>
    obtain ⟨catalog, hadded⟩ := edited_addLabel d label
    rw [hadded]
    exact ⟨h.distinct, h.filed, h.named⟩
  | addEdge e => exact ⟨h.distinct, h.filed, h.named⟩
  | removeEdge e => exact ⟨h.distinct, h.filed, h.named⟩
  | setPolicy policy comparator => exact ⟨h.distinct, h.filed, h.named⟩
  | addGuardrail g => exact ⟨h.distinct, h.filed, h.named⟩
  | commit => exact ⟨h.distinct, h.filed, h.named⟩

theorem editedAll (h : d.Consistent) (edits : List Edit) : (d.editedAll edits).Consistent := by
  induction edits generalizing d with
  | nil => exact h
  | cons edit rest ih => exact ih (h.edited edit)

end Consistent

/-! ## Ids -/

theorem mem_nodes_iff : n ∈ d.nodes ↔ ∃ slot, d.nodeAt slot = some n := by
  unfold nodes nodeAt
  rw [List.mem_filterMap]
  simp only [List.mem_iff_getElem?, Option.join_eq_some_iff]
  exact ⟨fun ⟨_, ⟨slot, hslot⟩, hn⟩ => ⟨slot, hslot.trans (congrArg some hn)⟩,
    fun ⟨slot, hslot⟩ => ⟨_, ⟨slot, hslot⟩, rfl⟩⟩

namespace Consistent

/-- An id is in the index exactly if a node has it. -/
theorem mem_ids_iff (h : d.Consistent) : id ∈ d.ids ↔ (d.slotOf? id).isSome := by
  unfold ids
  simp only [Option.isSome_iff_exists, h.filed, List.mem_map, mem_nodes_iff]
  exact ⟨fun ⟨n, ⟨slot, hn⟩, hid⟩ => ⟨slot, n, hn, hid⟩,
    fun ⟨slot, n, hn, hid⟩ => ⟨n, ⟨slot, hn⟩, hid⟩⟩

/-- No two nodes have one id: the index has one slot for it. -/
theorem nodup_ids (h : d.Consistent) : d.ids.Nodup := by
  have hslots : d.slots.Pairwise fun a b => ∀ n ∈ a, ∀ m ∈ b, n.id ≠ m.id := by
    rw [List.pairwise_iff_getElem]
    intro i j hi hj hij n hn m hm heq
    have hfirst : d.slotOf? m.id = some i := (h.filed _ _).2 ⟨n, by simp_all [nodeAt], heq⟩
    have hsecond : d.slotOf? m.id = some j := (h.filed _ _).2 ⟨m, by simp_all [nodeAt], rfl⟩
    have hsame := Option.some.inj (hfirst.symm.trans hsecond)
    omega
  unfold ids nodes List.Nodup
  rw [List.pairwise_map, List.pairwise_filterMap]
  exact hslots.imp fun hab n hn m hm => hab n hn m hm

end Consistent

/-- The slot of a node, with those before it and those behind it. -/
theorem exists_slots_split (h : d.nodeAt place = some n) : ∃ front back,
    d.slots = front ++ some n :: back ∧
      ∀ content, d.slots.set place content = front ++ content :: back := by
  have hlt := lt_of_nodeAt h
  have hset : ∀ content, d.slots.set place content =
      d.slots.take place ++ content :: d.slots.drop (place + 1) := fun content => by
    rw [List.set_eq_take_append_cons_drop, if_pos hlt]
  refine ⟨_, _, ?_, hset⟩
  rw [nodeAt, Option.join_eq_some_iff] at h
  rw [← hset, ← (List.getElem?_eq_some_iff.1 h).2, List.set_getElem_self]

namespace Consistent

/-- Removing a node takes its id out. -/
theorem ids_removeNode (h : d.Consistent) (id : Bytes) :
    (d.removeNode id).2.ids = d.ids.erase id := by
  unfold removeNode
  cases hplace : d.slotOf? id with
  | none =>
    have hnone : id ∉ d.ids := by
      rw [h.mem_ids_iff, hplace]
      simp
    exact (List.erase_of_not_mem hnone).symm
  | some place =>
    obtain ⟨n, hn, rfl⟩ := (h.filed _ _).1 hplace
    obtain ⟨front, back, hslots, hset⟩ := exists_slots_split hn
    have hnodup := h.nodup_ids
    unfold ids nodes at hnodup ⊢
    dsimp only
    rw [hset]
    rw [hslots] at hnodup ⊢
    simp only [List.filterMap_append, List.filterMap_cons, id_eq, List.map_append, List.map_cons]
      at hnodup ⊢
    have hfront := fun hmem => (List.nodup_append.1 hnodup).2.2 n.id hmem n.id
      (List.mem_cons_self ..) rfl
    rw [List.erase_append_right _ hfront, List.erase_cons_head]

/-- A node that takes the place of another one has its id. -/
theorem ids_replaceNode (h : d.Consistent) (n : Node) : (d.replaceNode n).2.ids = d.ids := by
  unfold replaceNode
  cases hplace : d.slotOf? n.id with
  | none => rfl
  | some place =>
    obtain ⟨old, hold, hid⟩ := (h.filed _ _).1 hplace
    obtain ⟨front, back, hslots, hset⟩ := exists_slots_split hold
    unfold ids nodes
    dsimp only
    rw [hset, hslots]
    simp [hid]

/-- **What a call does to the order of declaration**: an id may come last, or the one that is to be
removed is missing. -/
theorem ids_edited (h : d.Consistent) (edit : Edit) :
    (∃ id, edit = .removeNode id ∧ (d.edited edit).ids = d.ids.erase id) ∨
      (∀ id, edit ≠ .removeNode id) ∧ ∃ new, (d.edited edit).ids = d.ids ++ new := by
  have hkept : ∀ {d' : Draft}, d'.ids = d.ids → ∃ new, d'.ids = d.ids ++ new := fun hids =>
    ⟨[], by rw [hids, List.append_nil]⟩
  cases edit with
  | addNode n =>
    refine .inr ⟨nofun, ?_⟩
    rcases edited_addNode d n with hfailed | ⟨-, -, hadded⟩
    · exact hkept (congrArg ids hfailed)
    · exact ⟨[n.id], by rw [hadded]; simp [ids, nodes]⟩
  | removeNode id => exact .inl ⟨id, rfl, h.ids_removeNode id⟩
  | replaceNode n => exact .inr ⟨nofun, hkept (h.ids_replaceNode n)⟩
  | addLabel label =>
    obtain ⟨catalog, hadded⟩ := edited_addLabel d label
    exact .inr ⟨nofun, hkept (by rw [hadded]; rfl)⟩
  | addEdge e => exact .inr ⟨nofun, hkept rfl⟩
  | removeEdge e => exact .inr ⟨nofun, hkept rfl⟩
  | setPolicy policy comparator => exact .inr ⟨nofun, hkept rfl⟩
  | addGuardrail g => exact .inr ⟨nofun, hkept rfl⟩
  | commit => exact .inr ⟨nofun, hkept rfl⟩

/-- **Nodes that are not removed keep their order**, and come before all that were declared later.
-/
theorem survivors_prefix (h : d.Consistent) (more : List Edit) :
    (d.ids.filter fun id => decide (.removeNode id ∉ more)) <+: (d.editedAll more).ids := by
  induction more generalizing d with
  | nil =>
    rw [List.filter_eq_self.2 fun id _ => by simp]
    exact List.prefix_rfl
  | cons edit rest ih =>
    refine List.IsPrefix.trans ?_ (ih (h.edited edit))
    rcases h.ids_edited edit with ⟨id, rfl, hids⟩ | ⟨hedit, new, hids⟩
    · rw [hids, h.nodup_ids.erase_eq_filter, List.filter_filter]
      refine (List.filter_congr fun other _ => ?_) ▸ List.prefix_rfl
      by_cases hother : other = id
      · simp [hother]
      · simp [hother]
    · rw [hids, List.filter_append, List.filter_congr fun id _ => ?_]
      · exact List.prefix_append ..
      · simp [Ne.symm (hedit id)]

end Consistent

/-! ## Edges -/

/-- A call brings in no edge but the one that it adds. -/
theorem count_edges_edited (d : Draft) (edit : Edit) (e : Edge) :
    (d.edited edit).edges.count e ≤ d.edges.count e + [edit].count (.addEdge e) := by
  have hkept : ∀ {d' : Draft}, d'.edges.Sublist d.edges →
      d'.edges.count e ≤ d.edges.count e + [edit].count (.addEdge e) := fun hsub =>
    Nat.le_add_right_of_le (hsub.count_le e)
  cases edit with
  | addNode n =>
    rcases edited_addNode d n with hfailed | ⟨-, -, hadded⟩
    · exact hkept (by rw [hfailed])
    · exact hkept (by rw [hadded])
  | removeNode id =>
    rcases edited_removeNode d id with habsent | ⟨place, -, hremoved⟩
    · exact hkept (by rw [habsent])
    · exact hkept (by rw [hremoved]; exact List.filter_sublist)
  | replaceNode n =>
    rcases edited_replaceNode d n with habsent | ⟨place, -, hreplaced⟩
    · exact hkept (by rw [habsent])
    · exact hkept (by rw [hreplaced])
  | addEdge added =>
    unfold edited addEdge
    rw [List.count_append, List.count_singleton, List.count_singleton]
    simp
  | removeEdge gone => exact hkept (List.erase_sublist ..)
  | addLabel label =>
    obtain ⟨catalog, hadded⟩ := edited_addLabel d label
    exact hkept (by rw [hadded])
  | setPolicy policy comparator => exact hkept (List.Sublist.refl _)
  | addGuardrail g => exact hkept (List.Sublist.refl _)
  | commit => exact hkept (List.Sublist.refl _)

/-- There are no more edges of a kind than there were before and were added since. -/
theorem count_edges_editedAll (d : Draft) (edits : List Edit) (e : Edge) :
    (d.editedAll edits).edges.count e ≤ d.edges.count e + edits.count (.addEdge e) := by
  induction edits generalizing d with
  | nil => exact Nat.le_refl _
  | cons edit rest ih =>
    have hstep := count_edges_edited d edit e
    have hrest := ih (d.edited edit)
    rw [List.count_cons]
    rw [List.count_singleton] at hstep
    exact Nat.le_trans hrest (by omega)

/-- No edge is left at a node that is removed. -/
theorem count_edges_removeNode (hthere : (d.slotOf? id).isSome)
    (he : e.source = id ∨ e.target = id) : (d.removeNode id).2.edges.count e = 0 := by
  obtain ⟨place, hplace⟩ := Option.isSome_iff_exists.1 hthere
  unfold removeNode
  rw [hplace, List.count_eq_zero]
  intro hmem
  have hapart := (List.mem_filter.1 hmem).2
  rcases he with rfl | rfl
  · simp at hapart
  · simp at hapart

/-! ## Versions -/

/-- A commit counts up, and no other call does. -/
theorem lastVersion_edited (d : Draft) (edit : Edit) : (d.edited edit).lastVersion =
    d.lastVersion + UInt64.ofNat ([edit].count .commit) := by
  have hkept : ∀ {d' : Draft}, d'.lastVersion = d.lastVersion →
      d'.lastVersion = d.lastVersion + UInt64.ofNat 0 := fun hsame =>
    hsame.trans (UInt64.add_zero _).symm
  cases edit with
  | addNode n =>
    rcases edited_addNode d n with hfailed | ⟨-, -, hadded⟩
    · exact hkept (by rw [hfailed])
    · exact hkept (by rw [hadded])
  | removeNode id =>
    rcases edited_removeNode d id with habsent | ⟨place, -, hremoved⟩
    · exact hkept (by rw [habsent])
    · exact hkept (by rw [hremoved])
  | replaceNode n =>
    rcases edited_replaceNode d n with habsent | ⟨place, -, hreplaced⟩
    · exact hkept (by rw [habsent])
    · exact hkept (by rw [hreplaced])
  | addLabel label =>
    obtain ⟨catalog, hadded⟩ := edited_addLabel d label
    exact hkept (by rw [hadded])
  | addEdge e => exact hkept rfl
  | removeEdge e => exact hkept rfl
  | setPolicy policy comparator => exact hkept rfl
  | addGuardrail g => exact hkept rfl
  | commit => rfl

/-- The last version is the number of commits. -/
theorem lastVersion_editedAll (d : Draft) (edits : List Edit) :
    (d.editedAll edits).lastVersion = d.lastVersion + UInt64.ofNat (edits.count .commit) := by
  induction edits generalizing d with
  | nil => exact (UInt64.add_zero _).symm
  | cons edit rest ih =>
    have hrest := ih (d.edited edit)
    rw [lastVersion_edited, UInt64.add_assoc, ← UInt64.ofNat_add, ← List.count_append] at hrest
    exact hrest

/-! ## Drafts after any history -/

/-- **Drafts stay consistent.**  After any history of calls, failed ones included, the index has the
slot of each node that is there under its id, and nothing else; ids are not empty, and no two nodes
share one.  Nodes that are not removed later keep their order, before all that are declared later;
no edge at a node survives the removal of that node, so that there are later no more such edges than
are added later.  A node is refused just where its id is empty or taken, and then nothing changes.
A commit gives the nodes that are there, in the order of their slots, under the next version, and
whatever the options, compiling what it gives says nothing about ids. -/
theorem stays_consistent (graph tenant decisionType : Bytes) (edits : List Edit) {d : Draft}
    (hd : d = (Draft.start graph tenant decisionType).editedAll edits) :
    (Keyed.Distinct d.index ∧ ∀ id slot, (id, slot) ∈ d.index ↔
        ∃ n, d.slots[slot]? = some (some n) ∧ n.id = id) ∧
      (d.ids.Nodup ∧ ∀ id ∈ d.ids, id ≠ []) ∧
      (∀ more, (d.ids.filter fun id => decide (.removeNode id ∉ more)) <+:
        (d.editedAll more).ids) ∧
      (∀ id ∈ d.ids, ∀ more e, e.source = id ∨ e.target = id →
        ((d.removeNode id).2.editedAll more).edges.count e ≤ more.count (.addEdge e)) ∧
      (∀ n, ((∃ reason, d.addNode n = .error reason) ↔ n.id = [] ∨ n.id ∈ d.ids) ∧
        ((∃ reason, d.addNode n = .error reason) → d.edited (.addNode n) = d)) ∧
      (d.commit.1.nodes = d.slots.filterMap (fun slot => slot) ∧
        d.commit.1.version = UInt64.ofNat (edits.count .commit + 1) ∧
        d.commit.2 = { d with lastVersion := d.commit.1.version }) ∧
      ∀ o, ∀ x ∈ (d.commit.1.compile o).errors ++ (d.commit.1.compile o).warnings,
        ¬x.BlamesId := by
  have h : d.Consistent := hd ▸ (Consistent.start graph tenant decisionType).editedAll edits
  have hnamed : ∀ n ∈ d.nodes, n.id ≠ [] := fun n hn => by
    obtain ⟨slot, hslot⟩ := mem_nodes_iff.1 hn
    exact h.named slot n hslot
  refine ⟨⟨h.distinct, fun id slot => ?_⟩, ⟨h.nodup_ids, ?_⟩, h.survivors_prefix,
    fun id hid more e he => ?_, fun n => ⟨?_, edited_of_refused⟩, ⟨rfl, ?_, rfl⟩,
    Revision.not_blamesId hnamed h.nodup_ids⟩
  · have hfiled := h.filed id slot
    simp only [nodeAt, Option.join_eq_some_iff] at hfiled
    exact h.distinct.find?_eq_some_iff.symm.trans hfiled
  · simpa [ids] using hnamed
  · have hleft := count_edges_editedAll (d.removeNode id).2 more e
    rwa [count_edges_removeNode (h.mem_ids_iff.1 hid) he, Nat.zero_add] at hleft
  · rw [exists_addNode_eq_error_iff, h.mem_ids_iff]
  · have hversion := lastVersion_editedAll (Draft.start graph tenant decisionType) edits
    rw [← hd] at hversion
    show d.lastVersion + 1 = _
    rw [hversion, UInt64.ofNat_add]
    exact congrArg (· + 1) (UInt64.zero_add _)

/-- A decision of an id. -/
def sampleNode (id : String) : Node := ⟨utf8 id, [], 0, .zero, .decision ⟨[], []⟩⟩

/-- A node is removed, with an edge at it, and added again, twice. -/
def sampleEdits : List Edit :=
  [.addNode (sampleNode "a"), .addNode (sampleNode "b"),
    .addEdge ⟨utf8 "a", .flowsTo, utf8 "b"⟩, .commit, .removeNode (utf8 "a"),
    .addNode (sampleNode "a"), .addNode (sampleNode "a")]

/-- The draft after that. -/
def sampleDraft : Draft := (Draft.start (utf8 "g") [] []).editedAll sampleEdits

theorem stays_consistent_sample :
    (sampleDraft.ids = [utf8 "b", utf8 "a"] ∧ sampleDraft.edges = []) ∧
      (∃ reason, sampleDraft.addNode (sampleNode "a") = .error reason) ∧
      sampleDraft.commit.1.version = 2 ∧
      ∀ o, ∀ x ∈ (sampleDraft.commit.1.compile o).errors ++
        (sampleDraft.commit.1.compile o).warnings, ¬x.BlamesId := by
  obtain ⟨-, -, -, -, hrefused, ⟨-, hversion, -⟩, hblame⟩ :=
    stays_consistent (utf8 "g") [] [] sampleEdits (d := sampleDraft) rfl
  refine ⟨by decide, (hrefused _).1.2 (.inr ?_), hversion, hblame⟩
  decide

end Draft
end DecisionEngine
