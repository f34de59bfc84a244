import DecisionEngine.Blueprint.Decode
/-!
# How readers refuse bytes

A reader refuses bytes for damage to the encoding, or for an item of another kind, save where the
head of a list announces more texts than can be addressed.

* `Overstated` — behind the head of a list that announces too many texts.
* `Reader.Orderly` — a reader stays in the bytes, and refuses them for no other reason.
* `Reader.Orderly.bind` — so do readers one after another.
* `Reader.orderly_texts` — a list of texts is refused right behind its head.
* `Reader.orderly_branch`, `Reader.orderly_step`, … — so are the structures that have such lists.
* `Reader.Overflows`, `Reader.Tame` — whether a reader refuses bytes for that reason.
* `Reader.overflows_texts_iff` — a list of texts does so just if it announces too many.
-/

namespace DecisionEngine
namespace Wire

/-- The bytes are refused as damaged or as another kind of item. -/
def Error.IsCodec (e : Error) : Prop := e.cause ≠ .oversized

/-- What is left for a cursor is what follows its position. -/
def Cursor.In (c : Cursor) (bytes : Bytes) : Prop := c.rest = bytes.drop c.position

/-- A position is right behind the head of a list that announces more texts than can be
addressed. -/
def Overstated (bytes : Bytes) (position : Nat) : Prop :=
  ∃ start n, Reader.listHead ⟨start, bytes.drop start⟩ = .ok (n, ⟨position, bytes.drop position⟩) ∧
    Reader.maxTexts < n

namespace Reader

variable {α β σ : Type} {bytes : Bytes} {P : Nat → Prop}

/-- A reader stays in the bytes that it reads, and refuses them as damaged or as another kind of
item, save at certain positions. -/
def Orderly (bytes : Bytes) (P : Nat → Prop) (r : Reader α) : Prop :=
  ∀ c : Cursor, c.In bytes → match r c with
    | .ok (_, c') => c'.In bytes
    | .error e => e.cause = .oversized → P e.position

/-! ## Readers one after another -/

theorem orderly_pure (x : α) : Orderly bytes P (pure x) := fun _ hc => hc

theorem Orderly.bind {r : Reader α} {f : α → Reader β} (h : Orderly bytes P r)
    (hf : ∀ x, Orderly bytes P (f x)) : Orderly bytes P (r >>= f) := by
  intro c hc
  have hr := h c hc
  simp only [Bind.bind, StateT.bind]
  cases hrun : r c with
  | error e =>
    rw [hrun] at hr
    exact hr
  | ok p =>
    rw [hrun] at hr
    exact hf p.1 p.2 hr

/-- What is read last can be changed on the way out. -/
theorem Orderly.map {r : Reader α} (f : α → β) (h : Orderly bytes P r) :
    Orderly bytes P (r >>= fun x => pure (f x)) := h.bind fun _ => orderly_pure _

theorem orderly_ite {p : Prop} [Decidable p] {r r' : Reader α} (h : Orderly bytes P r)
    (h' : Orderly bytes P r') : Orderly bytes P (if p then r else r') := by
  split
  · exact h
  · exact h'

theorem orderly_position : Orderly bytes P position := fun _ hc => hc

theorem orderly_failAt {at_ : Nat} {cause : Cause} (h : cause ≠ .oversized) :
    Orderly bytes P (failAt at_ cause : Reader α) := fun _ _ hcause => absurd hcause h

theorem orderly_fail {cause : Cause} (h : cause ≠ .oversized) :
    Orderly bytes P (fail cause : Reader α) := fun _ _ hcause => absurd hcause h

theorem orderly_expected (what : String) : Orderly bytes P (expected what : Reader α) :=
  orderly_fail Cause.noConfusion

/-! ## Bytes -/

theorem split?_eq_some {n : Nat} {bs front back : Bytes} (h : split? n bs = some (front, back)) :
    back = bs.drop n := by
  induction n generalizing bs front with
  | zero =>
    cases h
    rfl
  | succ n ih =>
    cases bs with
    | nil => cases h
    | cons b bs =>
      obtain ⟨p, hp, hpair⟩ := Option.map_eq_some_iff.1 h
      obtain ⟨-, rfl⟩ := Prod.mk.inj hpair
      exact ih hp

theorem orderly_take (n : Nat) : Orderly bytes P (take n) := by
  intro c hc
  unfold take
  cases hsplit : split? n c.rest with
  | none => exact Cause.noConfusion
  | some p =>
    change p.2 = bytes.drop (c.position + n)
    rw [split?_eq_some hsplit, hc, List.drop_drop]

theorem orderly_byte : Orderly bytes P byte := by
  intro c hc
  unfold byte
  cases hrest : c.rest with
  | nil => exact Cause.noConfusion
  | cons b back =>
    change back = bytes.drop (c.position + 1)
    rw [← List.drop_drop, ← hc, hrest]
    rfl

theorem orderly_peek : Orderly bytes P peek := by
  intro c hc
  unfold peek
  cases c.rest with
  | nil => exact Cause.noConfusion
  | cons b back => exact hc

theorem orderly_peekTag : Orderly bytes P peekTag := orderly_peek.map _

theorem orderly_varintWithin (groups : Nat) : Orderly bytes P (varintWithin groups) := by
  induction groups with
  | zero =>
    exact orderly_position.bind fun _ => orderly_byte.bind fun _ => orderly_failAt Cause.noConfusion
  | succ groups ih =>
    exact orderly_byte.bind fun _ => orderly_ite (orderly_pure _) (ih.map _)

theorem orderly_varint : Orderly bytes P varint := orderly_varintWithin 9

theorem orderly_header : Orderly bytes P header :=
  orderly_byte.bind fun _ => orderly_byte.bind fun _ =>
    orderly_ite (orderly_failAt Cause.noConfusion)
      (orderly_ite (orderly_failAt Cause.noConfusion) (orderly_pure _))

/-! ## Scalars -/

theorem orderly_int : Orderly bytes P int := by
  refine orderly_peekTag.bind fun tag => ?_
  cases tag.bind Tag.intWidth? with
  | none => exact orderly_expected _
  | some width => exact orderly_byte.bind fun _ => (orderly_take width).map _

theorem orderly_word : Orderly bytes P word := orderly_int.map _

theorem orderly_real : Orderly bytes P real := by
  refine orderly_peekTag.bind fun tag => ?_
  split
  · exact orderly_byte.bind fun _ => (orderly_take 8).map _
  · exact orderly_ite (orderly_int.map _) (orderly_expected _)
  · exact orderly_expected _

theorem orderly_counted : Orderly bytes P counted :=
  orderly_byte.bind fun _ => orderly_varint.bind fun _ => orderly_take _

theorem orderly_text : Orderly bytes P text :=
  orderly_peekTag.bind fun _ => orderly_ite orderly_counted (orderly_expected _)

theorem orderly_symbol : Orderly bytes P symbol :=
  orderly_peekTag.bind fun _ => orderly_ite orderly_counted (orderly_expected _)

theorem orderly_binary : Orderly bytes P binary :=
  orderly_peekTag.bind fun _ => orderly_ite orderly_counted (orderly_expected _)

theorem orderly_bool : Orderly bytes P bool :=
  orderly_position.bind fun _ => orderly_symbol.bind fun _ =>
    orderly_ite (orderly_pure _) (orderly_ite (orderly_pure _) (orderly_failAt Cause.noConfusion))

theorem orderly_value : Orderly bytes P value := by
  refine orderly_peekTag.bind fun tag => ?_
  split
  · exact orderly_text.map _
  · exact orderly_real.map _
  · refine orderly_position.bind fun _ => orderly_symbol.bind fun _ => ?_
    exact orderly_ite (orderly_pure _) (orderly_ite (orderly_pure _)
      (orderly_ite (orderly_pure _) (orderly_failAt Cause.noConfusion)))
  · exact orderly_ite (orderly_int.map _) (orderly_expected _)
  · exact orderly_expected _

theorem orderly_enumeration (members : List α) : Orderly bytes P (enumeration members) := by
  refine orderly_position.bind fun _ => orderly_int.bind fun n => ?_
  split
  · exact orderly_pure _
  · exact orderly_failAt Cause.noConfusion

/-! ## Structures -/

theorem orderly_anyFunction : Orderly bytes P anyFunction :=
  orderly_peekTag.bind fun _ => orderly_ite
    (orderly_byte.bind fun _ => orderly_varint.bind fun _ => orderly_symbol.map _)
    (orderly_expected _)

theorem orderly_function (head : Bytes) : Orderly bytes P (function head) :=
  orderly_peekTag.bind fun _ => orderly_ite
    (orderly_byte.bind fun _ => orderly_varint.bind fun _ => orderly_position.bind fun _ =>
      orderly_symbol.bind fun _ => orderly_ite (orderly_pure _) (orderly_failAt Cause.noConfusion))
    (orderly_fail Cause.noConfusion)

theorem orderly_listHead : Orderly bytes P listHead := orderly_function _

theorem orderly_associationHead : Orderly bytes P associationHead :=
  orderly_peekTag.bind fun _ => orderly_ite (orderly_byte.bind fun _ => orderly_varint)
    (orderly_expected _)

theorem orderly_key : Orderly bytes P key :=
  orderly_peekTag.bind fun _ => orderly_ite (orderly_byte.bind fun _ => orderly_text)
    (orderly_expected _)

theorem orderly_times {item : Reader α} (h : Orderly bytes P item) (n : Nat) :
    Orderly bytes P (times n item) := by
  induction n with
  | zero => exact orderly_pure _
  | succ n ih => exact h.bind fun _ => ih.map _

theorem orderly_list {item : Reader α} (h : Orderly bytes P item) : Orderly bytes P (list item) :=
  orderly_listHead.bind fun _ => orderly_times h _

/-- A list of texts is refused right behind its head if it announces too many. -/
theorem orderly_texts : Orderly bytes (Overstated bytes) texts := by
  intro c hc
  have hhead := orderly_listHead (P := fun _ => False) c hc
  unfold texts
  simp only [Bind.bind, StateT.bind]
  cases hrun : listHead c with
  | error e =>
    rw [hrun] at hhead
    exact fun hcause => (hhead hcause).elim
  | ok p =>
    obtain ⟨n, c'⟩ := p
    rw [hrun] at hhead
    dsimp only [Except.bind]
    by_cases hmany : maxTexts < n
    · rw [if_pos hmany]
      refine fun _ => ⟨c.position, n, ?_, hmany⟩
      have hrest : c = ⟨c.position, bytes.drop c.position⟩ := by rw [← hc]
      have hrest' : c' = ⟨c'.position, bytes.drop c'.position⟩ := by rw [← hhead]
      rw [← hrest, hrun, hrest']
    · rw [if_neg hmany]
      exact orderly_times orderly_text n c' hhead

theorem orderly_attributes : Orderly bytes P attributes := by
  have hentries : ∀ n acc, Orderly bytes P (attributeEntries n acc) := by
    intro n
    induction n with
    | zero => exact fun _ => orderly_pure _
    | succ n ih =>
      exact fun _ => orderly_key.bind fun _ => orderly_value.bind fun _ => ih _
  exact orderly_associationHead.bind fun _ => hentries _ _

/-! ## Skipping -/

theorem orderly_repeated {item : Reader Unit} (h : Orderly bytes P item) (n : Nat) :
    Orderly bytes P (repeated n item) := by
  induction n with
  | zero => exact orderly_pure _
  | succ n ih => exact h.bind fun _ => ih

theorem orderly_skipWithin (depth : Nat) : Orderly bytes P (skipWithin depth) := by
  induction depth with
  | zero => exact orderly_fail Cause.noConfusion
  | succ depth ih =>
    refine orderly_peekTag.bind fun tag => ?_
    split
    · exact orderly_counted.bind fun _ => orderly_pure _
    · exact orderly_counted.bind fun _ => orderly_pure _
    · exact orderly_counted.bind fun _ => orderly_pure _
    · exact orderly_real.bind fun _ => orderly_pure _
    · exact orderly_byte.bind fun _ => orderly_varint.bind fun _ => orderly_symbol.bind fun _ =>
        orderly_repeated ih _
    · exact orderly_associationHead.bind fun _ =>
        orderly_repeated (orderly_key.bind fun _ => ih) _
    · exact orderly_fail Cause.noConfusion
    · exact orderly_fail Cause.noConfusion
    all_goals exact orderly_int.bind fun _ => orderly_pure _

theorem orderly_skip : Orderly bytes P skip := fun c hc => orderly_skipWithin _ c hc

/-- One known entry of an association, in front of the others. -/
theorem orderly_entry {p : Prop} [Decidable p] {entry : Reader σ} {others : Option (Reader σ)}
    (h : Orderly bytes P entry) (h' : ∀ r ∈ others, Orderly bytes P r) :
    ∀ r ∈ if p then some entry else others, Orderly bytes P r := by
  intro r hr
  split at hr
  · exact Option.mem_some.1 hr ▸ h
  · exact h' r hr

theorem orderly_noEntry : ∀ r ∈ (none : Option (Reader σ)), Orderly bytes P r :=
  fun _ hr => by cases hr

/-- An association is read in order if its known entries are. -/
theorem orderly_associationWith {visit : Bytes → σ → Option (Reader σ)} {start : σ}
    (h : ∀ k acc, ∀ r ∈ visit k acc, Orderly bytes P r) :
    Orderly bytes P (associationWith visit start) := by
  have hentries : ∀ n acc, Orderly bytes P (entriesWith visit n acc) := by
    intro n
    induction n with
    | zero => exact fun _ => orderly_pure _
    | succ n ih =>
      intro acc
      refine orderly_key.bind fun k => ?_
      split
      · rename_i r hr
        exact (h k acc r hr).bind fun _ => ih _
      · exact orderly_skip.bind fun _ => ih _
  exact orderly_associationHead.bind fun _ => hentries _ _

theorem orderly_finish (what : String) : Orderly bytes P (finish what) :=
  Orderly.bind (fun _ hc => hc) fun _ => orderly_ite (orderly_pure _)
    (orderly_fail Cause.noConfusion)

/-! ## Parts of blueprints -/

theorem orderly_instructions (at_ : Nat) (code : Bytes) :
    Orderly bytes P (instructions at_ code) := by
  fun_induction instructions at_ code with
  | case1 => exact orderly_failAt Cause.noConfusion
  | case2 _ _ _ _ _ _ _ _ _ _ _ _ ih => exact ih.map _
  | case3 => exact orderly_pure _

theorem orderly_program : Orderly bytes P program :=
  (orderly_function _).bind fun _ => orderly_int.bind fun _ => (orderly_list orderly_value).bind
    fun _ => orderly_position.bind fun _ => orderly_binary.bind fun _ =>
      orderly_ite (orderly_failAt Cause.noConfusion) ((orderly_instructions _ _).map _)

theorem orderly_outcome : Orderly bytes P outcome :=
  (orderly_function _).bind fun _ => orderly_text.bind fun _ => orderly_attributes.map _

theorem orderly_guard : Orderly bytes (Overstated bytes) guard :=
  (orderly_function _).bind fun _ => orderly_word.bind fun _ => orderly_program.bind fun _ =>
    orderly_texts.bind fun _ => orderly_text.map _

theorem orderly_nodeIndex (count : Nat) : Orderly bytes P (nodeIndex count) :=
  orderly_position.bind fun _ => orderly_int.bind fun _ =>
    orderly_ite (orderly_failAt Cause.noConfusion) (orderly_pure _)

theorem orderly_planNode : Orderly bytes P planNode :=
  (orderly_function _).bind fun _ => orderly_text.bind fun _ => (orderly_enumeration _).bind
    fun _ => orderly_text.map _

theorem orderly_orNull (what : String) {item : Reader α} (h : Orderly bytes P item) :
    Orderly bytes P (orNull what item) :=
  orderly_peekTag.bind fun _ => orderly_ite
    (orderly_position.bind fun _ => orderly_symbol.bind fun _ =>
      orderly_ite (orderly_pure _) (orderly_failAt Cause.noConfusion))
    (h.map _)

theorem orderly_branch (count : Nat) : Orderly bytes (Overstated bytes) (branch count) :=
  (orderly_function _).bind fun _ => (orderly_nodeIndex count).bind fun _ => orderly_guard.bind
    fun _ => orderly_int.bind fun _ => orderly_real.bind fun _ =>
      (orderly_orNull _ orderly_outcome).bind fun _ => orderly_int.map _

theorem orderly_dominance (count : Nat) : Orderly bytes P (dominance count) :=
  orderly_listHead.bind fun _ => (orderly_nodeIndex count).bind fun _ =>
    (orderly_nodeIndex count).map _

theorem orderly_step (count : Nat) : Orderly bytes (Overstated bytes) (step count) := by
  refine orderly_position.bind fun _ => orderly_anyFunction.bind fun _ => ?_
  refine orderly_ite ?_ (orderly_ite ?_ (orderly_ite ?_ (orderly_failAt Cause.noConfusion)))
  · exact (orderly_nodeIndex count).bind fun _ => orderly_guard.map _
  · exact (orderly_nodeIndex count).bind fun _ => orderly_guard.bind fun _ => orderly_outcome.map _
  · exact orderly_text.bind fun _ => (orderly_enumeration _).bind fun _ => orderly_text.bind
      fun _ => (orderly_list (orderly_branch count)).bind fun _ =>
        (orderly_list (orderly_dominance count)).map _

theorem orderly_guardrail : Orderly bytes (Overstated bytes) guardrail :=
  (orderly_function _).bind fun _ => orderly_text.bind fun _ => orderly_text.bind fun _ =>
    (orderly_enumeration _).bind fun _ => orderly_texts.bind fun _ => orderly_program.bind fun _ =>
      orderly_text.bind fun _ => (orderly_enumeration _).bind fun _ => orderly_text.bind fun _ =>
        orderly_value.bind fun _ => orderly_outcome.map _

/-! ## Readers that stop -/

/-- A reader stops because a list announces more texts than can be addressed. -/
def Overflows (r : Reader α) (c : Cursor) : Prop := ∃ e, r c = .error e ∧ ¬e.IsCodec

theorem overflows_bind_iff {r : Reader α} {f : α → Reader β} {c : Cursor} :
    Overflows (r >>= f) c ↔
      Overflows r c ∨ ∃ x c', r c = .ok (x, c') ∧ Overflows (f x) c' := by
  unfold Overflows
  simp only [Bind.bind, StateT.bind]
  cases r c with
  | error e =>
    constructor
    · rintro ⟨_, h, hcodec⟩
      cases h
      exact .inl ⟨e, rfl, hcodec⟩
    · rintro (⟨_, h, hcodec⟩ | ⟨_, _, h, _⟩)
      · cases h
        exact ⟨e, rfl, hcodec⟩
      · cases h
  | ok p =>
    refine ⟨fun h => .inr ⟨p.1, p.2, rfl, h⟩, ?_⟩
    rintro (⟨_, h, _⟩ | ⟨_, _, hp, h⟩)
    · cases h
    · cases hp
      exact h

/-- A reader never stops for that reason. -/
def Tame (r : Reader α) : Prop := ∀ c, ¬Overflows r c

/-- Every cursor stands in some bytes, so what is orderly in all bytes is tame. -/
theorem tame_of_orderly {r : Reader α} (h : ∀ bytes, Orderly bytes (fun _ => False) r) :
    Tame r := by
  intro c ⟨e, he, hcodec⟩
  have hin : c.In (List.replicate c.position 0 ++ c.rest) :=
    (List.drop_left' List.length_replicate).symm
  have hr := h _ c hin
  rw [he] at hr
  exact hr (Decidable.not_not.1 hcodec)

/-- A reader behind tame ones is the one that stops. -/
theorem Tame.overflows_bind_iff {r : Reader α} {f : α → Reader β} (h : Tame r) {c : Cursor} :
    Overflows (r >>= f) c ↔ ∃ x c', r c = .ok (x, c') ∧ Overflows (f x) c' := by
  rw [Reader.overflows_bind_iff, or_iff_right (h c)]

/-- A reader in front of tame ones is the one that stops. -/
theorem overflows_bind_tame_iff {r : Reader α} {f : α → Reader β} (h : ∀ x, Tame (f x))
    {c : Cursor} : Overflows (r >>= f) c ↔ Overflows r c := by
  rw [overflows_bind_iff, or_iff_left]
  exact fun ⟨x, c', _, hf⟩ => h x c' hf

theorem overflows_texts_iff {c : Cursor} :
    Overflows texts c ↔ ∃ n c', listHead c = .ok (n, c') ∧ maxTexts < n := by
  have hhead : Tame listHead := tame_of_orderly fun _ => orderly_listHead
  have htimes : ∀ n, Tame (times n text) := fun n =>
    tame_of_orderly fun _ => orderly_times orderly_text n
  unfold texts
  rw [hhead.overflows_bind_iff]
  refine exists_congr fun n => exists_congr fun c' => and_congr_right fun _ => ?_
  split
  · rename_i hmany
    exact iff_of_true ⟨_, rfl, fun h => h rfl⟩ hmany
  · rename_i hfew
    exact iff_of_false (htimes n c') hfew

/-- Reading a whole byte string stops where its reader does. -/
theorem overflows_run_iff {r : Reader α} {bs : Bytes} :
    (∃ e, run r bs = .error e ∧ ¬e.IsCodec) ↔ Overflows r (Cursor.start bs) := by
  unfold run Overflows
  cases r (Cursor.start bs) with
  | error e => simp [Except.map]
  | ok p => simp [Except.map]

end Reader
end Wire
end DecisionEngine
