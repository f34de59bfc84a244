import DecisionEngine.Proofs.Failure
import DecisionEngine.Wire.Reader
/-!
# How readers go through bytes

Whatever a reader reads, it looks at the next byte, takes one byte or a number of bytes, calls
another reader or refuses, and then goes on with what it has found.  A walk is a record of that: it
is made of such actions as the reader is, so what holds of each action, and is kept by going on,
holds of every reader that has a walk.

* `Walk` — how a reader goes through bytes, with one other reader to call.
* `Walk.value`, `Walk.attributes`, … — the walks of the readers of items.
* `Takes` — what is left behind a reader is what follows the bytes that it has taken.
* `Walk.forward` — readers that have walks give nothing back.
* `Walk.Sure`, `Walk.Sure.takes` — a walk that comes to an end only behind a byte, and its reader.
-/

namespace DecisionEngine
namespace Wire
namespace Reader

variable {α β σ : Type} {inner : Reader Unit}

/-! ## Walks -/

/-- How a reader goes through bytes, action by action; at some places it calls `inner`. -/
inductive Walk (inner : Reader Unit) : {α : Type} → Reader α → Type 1
  | done {α : Type} (x : α) : Walk inner (pure x)
  | position : Walk inner position
  | failAt {α : Type} (at_ : Nat) (cause : Cause) : Walk inner (failAt at_ cause : Reader α)
  | peek : Walk inner peek
  | byte : Walk inner byte
  | take (n : Nat) : Walk inner (take n)
  | inner : Walk inner inner
  | bind {α β : Type} {r : Reader α} {f : α → Reader β} (w : Walk inner r)
      (v : ∀ x, Walk inner (f x)) : Walk inner (r >>= f)
  | choose {α : Type} {p : Prop} [Decidable p] {r r' : Reader α} (w : Walk inner r)
      (w' : Walk inner r') : Walk inner (if p then r else r')

namespace Walk

/-- The walk of a reader that is the same. -/
def ofEq {r r' : Reader α} (h : r = r') (w : Walk inner r) : Walk inner r' := h ▸ w

/-- What is read last can be changed on the way out. -/
def map {r : Reader α} (f : α → β) (w : Walk inner r) : Walk inner (r >>= fun x => pure (f x)) :=
  .bind w fun _ => .done _

/-! ## Walks of scalars -/

def fail (cause : Cause) : Walk inner (Reader.fail cause : Reader α) :=
  .bind .position fun p => .failAt p cause

def expected (what : String) : Walk inner (Reader.expected what : Reader α) := .fail _

def peekTag : Walk inner peekTag := .map _ .peek

def varintWithin : ∀ groups, Walk inner (varintWithin groups)
  | 0 => .bind .position fun _ => .bind .byte fun _ => .failAt _ _
  | groups + 1 => .bind .byte fun _ => .choose (.done _) (.map _ (varintWithin groups))

def varint : Walk inner varint := varintWithin 9

def header : Walk inner header :=
  .bind .byte fun _ => .bind .byte fun _ => .choose (.failAt _ _) (.choose (.failAt _ _) (.done _))

def int : Walk inner int :=
  .bind .peekTag fun tag => match tag.bind Tag.intWidth? with
    | none => .expected _
    | some width => .bind .byte fun _ => .map _ (.take width)

def word : Walk inner word := .map _ .int

def real : Walk inner real :=
  .bind .peekTag fun
    | some .real => .bind .byte fun _ => .map _ (.take 8)
    | some .text | some .symbol | some .int8 | some .int16 | some .int32 | some .int64
    | some .function | some .association | some .rule | some .binary =>
      .choose (.map _ .int) (.expected _)
    | none => .expected _

def counted : Walk inner counted :=
  .bind .byte fun _ => .bind .varint fun n => .take n

def text : Walk inner text := .bind .peekTag fun _ => .choose .counted (.expected _)

def symbol : Walk inner symbol := .bind .peekTag fun _ => .choose .counted (.expected _)

def binary : Walk inner binary := .bind .peekTag fun _ => .choose .counted (.expected _)

def bool : Walk inner bool :=
  .bind .position fun _ => .bind .symbol fun _ =>
    .choose (.done _) (.choose (.done _) (.failAt _ _))

def value : Walk inner value :=
  .bind .peekTag fun
    | some .text => .map _ .text
    | some .real => .map _ .real
    | some .symbol => .bind .position fun _ => .bind .symbol fun _ =>
      .choose (.done _) (.choose (.done _) (.choose (.done _) (.failAt _ _)))
    | some .int8 | some .int16 | some .int32 | some .int64 | some .function | some .association
    | some .rule | some .binary => .choose (.map _ .int) (.expected _)
    | none => .expected _

def enumeration (members : List α) : Walk inner (enumeration members) :=
  .bind .position fun _ => .bind .int fun n =>
    match (if 0 ≤ n.toInt then members[n.toInt.toNat]? else none) with
    | some _ => .done _
    | none => .failAt _ _

/-! ## Walks of structures -/

def anyFunction : Walk inner anyFunction :=
  .bind .peekTag fun _ => .choose
    (.bind .byte fun _ => .bind .varint fun _ => .map _ .symbol)
    (.expected _)

def function (head : Bytes) : Walk inner (function head) :=
  .bind .peekTag fun _ => .choose
    (.bind .byte fun _ => .bind .varint fun _ => .bind .position fun _ => .bind .symbol fun _ =>
      .choose (.done _) (.failAt _ _))
    (.fail _)

def listHead : Walk inner listHead := function _

def associationHead : Walk inner associationHead :=
  .bind .peekTag fun _ => .choose (.bind .byte fun _ => .varint) (.expected _)

def key : Walk inner key :=
  .bind .peekTag fun _ => .choose (.bind .byte fun _ => .text) (.expected _)

def times {item : Reader α} (w : Walk inner item) : ∀ n, Walk inner (times n item)
  | 0 => .done _
  | n + 1 => .bind w fun _ => .map _ (times w n)

def list {item : Reader α} (w : Walk inner item) : Walk inner (list item) :=
  .bind .listHead fun n => .times w n

def texts : Walk inner texts :=
  .bind .listHead fun n => .choose (.fail _) (.times .text n)

def attributeEntries : ∀ n acc, Walk inner (attributeEntries n acc)
  | 0, _ => .done _
  | n + 1, _ => .bind .key fun _ => .bind .value fun _ => attributeEntries n _

def attributes : Walk inner attributes := .bind .associationHead fun n => attributeEntries n _

def repeated {item : Reader Unit} (w : Walk inner item) : ∀ n, Walk inner (repeated n item)
  | 0 => .done _
  | n + 1 => .bind w fun _ => repeated w n

end Walk

/-! ## What is taken -/

/-- What a reader leaves is what follows the bytes that it has taken, which are at least `n`. -/
def Takes (n : Nat) (r : Reader α) : Prop :=
  ∀ c x c', r c = .ok (x, c') → ∃ taken : Bytes, n ≤ taken.length ∧ c.rest = taken ++ c'.rest ∧
    c'.position = c.position + taken.length

theorem Takes.le {n : Nat} {r : Reader α} (h : Takes n r) {c c' : Cursor} {x : α}
    (hr : r c = .ok (x, c')) : c'.rest.length + n ≤ c.rest.length := by
  obtain ⟨taken, hn, hrest, -⟩ := h c x c' hr
  rw [hrest, List.length_append]
  omega

theorem Takes.mono {m n : Nat} {r : Reader α} (h : Takes n r) (hmn : m ≤ n) : Takes m r := by
  intro c x c' hr
  obtain ⟨taken, hn, htaken⟩ := h c x c' hr
  exact ⟨taken, Nat.le_trans hmn hn, htaken⟩

theorem takes_stay {r : Reader α} (h : ∀ c x c', r c = .ok (x, c') → c' = c) : Takes 0 r := by
  intro c x c' hr
  rw [h c x c' hr]
  exact ⟨[], Nat.le_refl 0, rfl, rfl⟩

theorem takes_failAt (n at_ : Nat) (cause : Cause) : Takes n (failAt at_ cause : Reader α) := by
  intro c x c' hr
  cases hr

theorem takes_byte : Takes 1 byte := by
  intro c b c' hr
  unfold byte at hr
  cases hrest : c.rest with
  | nil =>
    rw [hrest] at hr
    cases hr
  | cons b' back =>
    rw [hrest] at hr
    cases hr
    exact ⟨[b], Nat.le_refl 1, rfl, rfl⟩

theorem split?_spec {n : Nat} {bs front back : Bytes} (h : split? n bs = some (front, back)) :
    front.length = n ∧ bs = front ++ back := by
  induction n generalizing bs front with
  | zero =>
    cases h
    exact ⟨rfl, rfl⟩
  | succ n ih =>
    cases bs with
    | nil => cases h
    | cons b bs =>
      obtain ⟨p, hp, hpair⟩ := Option.map_eq_some_iff.1 h
      cases hpair
      obtain ⟨hlength, hbs⟩ := ih hp
      exact ⟨congrArg (· + 1) hlength, congrArg (b :: ·) hbs⟩

theorem takes_take (n : Nat) : Takes n (take n) := by
  intro c bs c' hr
  unfold take at hr
  cases hsplit : split? n c.rest with
  | none =>
    rw [hsplit] at hr
    cases hr
  | some p =>
    rw [hsplit] at hr
    cases hr
    obtain ⟨hlength, hrest⟩ := split?_spec hsplit
    exact ⟨p.1, Nat.le_of_eq hlength.symm, hrest, by rw [hlength]⟩

theorem Takes.bind {m n : Nat} {r : Reader α} {f : α → Reader β} (h : Takes m r)
    (hf : ∀ x, Takes n (f x)) : Takes (m + n) (r >>= f) := by
  intro c y c'' hrun
  obtain ⟨⟨x, c'⟩, hx, hy⟩ := bind_eq_ok.1 hrun
  obtain ⟨taken, hm, hrest, hposition⟩ := h c x c' hx
  obtain ⟨more, hn, hrest', hposition'⟩ := hf x c' y c'' hy
  refine ⟨taken ++ more, ?_, ?_, ?_⟩
  · rw [List.length_append]
    omega
  · rw [hrest, hrest', List.append_assoc]
  · rw [hposition', hposition, List.length_append, Nat.add_assoc]

theorem takes_ite {n : Nat} {p : Prop} [Decidable p] {r r' : Reader α} (h : Takes n r)
    (h' : Takes n r') : Takes n (if p then r else r') := by
  split
  · exact h
  · exact h'

/-- A walk goes forward if the reader does that it calls. -/
theorem Walk.forward {r : Reader α} (w : Walk inner r) (h : Takes 0 inner) : Takes 0 r := by
  induction w with
  | done x => exact takes_stay fun c x c' hr => by cases hr; rfl
  | position => exact takes_stay fun c x c' hr => by cases hr; rfl
  | failAt at_ cause => exact takes_failAt 0 at_ cause
  | peek =>
    refine takes_stay fun c x c' hr => ?_
    unfold Reader.peek at hr
    cases hrest : c.rest with
    | nil =>
      rw [hrest] at hr
      cases hr
    | cons b back =>
      rw [hrest] at hr
      cases hr
      rfl
  | byte => exact takes_byte.mono (Nat.zero_le 1)
  | take n => exact (takes_take n).mono (Nat.zero_le n)
  | inner => exact h
  | bind w v ihw ihv => exact ihw.bind ihv
  | choose w w' ihw ihw' => exact takes_ite ihw ihw'

/-- Wherever a walk comes to an end, it has taken a byte. -/
inductive Walk.Sure : {α : Type} → {r : Reader α} → Walk inner r → Prop
  | byte : (Walk.byte : Walk inner Reader.byte).Sure
  | take {n : Nat} (hn : 0 < n) : (Walk.take n : Walk inner _).Sure
  | failAt {α : Type} (at_ : Nat) (cause : Cause) :
    (Walk.failAt at_ cause : Walk inner (Reader.failAt at_ cause : Reader α)).Sure
  | first {α β : Type} {r : Reader α} {f : α → Reader β} {w : Walk inner r}
      {v : ∀ x, Walk inner (f x)} (h : w.Sure) : (Walk.bind w v).Sure
  | later {α β : Type} {r : Reader α} {f : α → Reader β} {w : Walk inner r}
      {v : ∀ x, Walk inner (f x)} (h : ∀ x, (v x).Sure) : (Walk.bind w v).Sure
  | choose {α : Type} {p : Prop} [Decidable p] {r r' : Reader α} {w : Walk inner r}
      {w' : Walk inner r'} (h : w.Sure) (h' : w'.Sure) : (Walk.choose (p := p) w w').Sure

theorem Walk.Sure.takes {r : Reader α} {w : Walk inner r} (hw : w.Sure) (h : Takes 0 inner) :
    Takes 1 r := by
  induction hw with
  | byte => exact takes_byte
  | take hn => exact (takes_take _).mono hn
  | failAt at_ cause => exact takes_failAt 1 at_ cause
  | @first _ _ _ _ _ v _ ih => exact ih.bind fun x => (v x).forward h
  | @later _ _ _ _ w _ _ ih => exact Nat.zero_add 1 ▸ (w.forward h).bind ih
  | choose _ _ ih ih' => exact takes_ite ih ih'

/-! ## Items take a byte -/

namespace Walk

theorem sure_fail (cause : Cause) :
    (Walk.fail cause : Walk inner (Reader.fail cause : Reader α)).Sure :=
  .later fun _ => .failAt _ _

theorem sure_expected (what : String) :
    (Walk.expected what : Walk inner (Reader.expected what : Reader α)).Sure := sure_fail _

theorem sure_int : (int : Walk inner _).Sure := by
  refine .later fun tag => ?_
  cases tag.bind Tag.intWidth? with
  | none => exact sure_expected _
  | some width => exact .first .byte

theorem sure_word : (word : Walk inner _).Sure := .first sure_int

theorem sure_real : (real : Walk inner _).Sure := by
  refine .later fun tag => ?_
  rcases tag with _ | tag
  · exact sure_expected _
  · cases tag with
    | real => exact .first .byte
    | _ => exact .choose (.first sure_int) (sure_expected _)

theorem sure_counted : (counted : Walk inner _).Sure := .first .byte

theorem sure_text : (text : Walk inner _).Sure :=
  .later fun _ => .choose sure_counted (sure_expected _)

theorem sure_symbol : (symbol : Walk inner _).Sure :=
  .later fun _ => .choose sure_counted (sure_expected _)

theorem sure_bool : (bool : Walk inner _).Sure := .later fun _ => .first sure_symbol

theorem sure_value : (value : Walk inner _).Sure := by
  refine .later fun tag => ?_
  rcases tag with _ | tag
  · exact sure_expected _
  · cases tag with
    | text => exact .first sure_text
    | real => exact .first sure_real
    | symbol => exact .later fun _ => .first sure_symbol
    | _ => exact .choose (.first sure_int) (sure_expected _)

theorem sure_enumeration (members : List α) : (enumeration members : Walk inner _).Sure :=
  .later fun _ => .first sure_int

theorem sure_function (head : Bytes) : (function head : Walk inner _).Sure :=
  .later fun _ => .choose (.first .byte) (sure_fail _)

theorem sure_anyFunction : (anyFunction : Walk inner _).Sure :=
  .later fun _ => .choose (.first .byte) (sure_expected _)

theorem sure_associationHead : (associationHead : Walk inner _).Sure :=
  .later fun _ => .choose (.first .byte) (sure_expected _)

theorem sure_key : (key : Walk inner _).Sure :=
  .later fun _ => .choose (.first .byte) (sure_expected _)

theorem sure_attributes : (attributes : Walk inner _).Sure := .first sure_associationHead

end Walk

end Reader
end Wire
end DecisionEngine
