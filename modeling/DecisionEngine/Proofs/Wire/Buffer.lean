import DecisionEngine.Proofs.Wire.Decoders
import DecisionEngine.Proofs.Wire.Numbers
/-!
# Decoding inside the data

The readers take bytes off a list, so none of them can look behind its end.  Here the same walks
are gone with an index into data that stays as it is.  To look at an index behind the data is
nothing at all, and so are a difference below zero and calls nested deeper than is allowed.  What
keeps the walks from there is one test in front of every access, and that whatever is nested in an
item comes behind its head.

* `Scan` — a computation that moves an index, and has a result, an error or nothing.
* `ensure`, `scanByte`, `scanTake` — the test, and the accesses behind it.
* `Walk.scan`, `Walk.run` — a walk gone with an index, with its calls and with all of them.
* `Mirrors` — an index comes, forward and inside the data, to what a reader makes of its bytes.
* `Walk.mirrors` — so does every walk whose calls do, and so do all walks.
* `LoopsStop` — loops end where the data does, whatever count it announces for them.
* `scanInstructions` — instructions taken from places in the code of a program.
* `decoding_stays_inside` — so decoders end inside the data, whatever counts and lengths it holds.
-/

namespace DecisionEngine
namespace Wire
namespace Reader

variable {α β σ : Type} {inner : Reader Unit} {data : Bytes} {p : Nat}

/-! ## The index -/

/-- A computation with an index into the data that it moves.  It comes to a result or an error, and
to where the index then is, or to nothing. -/
abbrev ScanOf (ε : Type) := ExceptT ε (StateT Nat Option)

/-- A computation whose errors are those of reading. -/
abbrev Scan := ScanOf Error

/-- The index. -/
def index : Scan Nat := fun p => some (.ok p, p)

/-- Moves the index. -/
def advance (n : Nat) : Scan Unit := fun p => some (.ok (), p + n)

/-- The difference of two numbers of which the first must not be less. -/
def minus (m n : Nat) : Scan Nat := fun p => if n ≤ m then some (.ok (m - n), p) else none

section Scanner

variable (data : Bytes)

/-- The byte at some place, which has to be one of the data. -/
def bare (i : Nat) : Scan UInt8 := fun p => data[i]?.map fun b => (.ok b, p)

/-- A number of bytes from some place on. -/
def bares (i : Nat) : Nat → Scan Bytes
  | 0 => pure []
  | n + 1 => do
    let b ← bare data i
    let bs ← bares (i + 1) n
    return b :: bs

/-- Tests that a number of bytes is left. -/
def ensure (count : Nat) : Scan Unit := do
  let p ← index
  if data.length < count then throw ⟨.malformed .endOfData, p⟩
  else if (← minus data.length count) < p then throw ⟨.malformed .endOfData, p⟩
  else pure ()

/-- The next byte, which stays. -/
def scanPeek : Scan UInt8 := do
  ensure data 1
  bare data (← index)

/-- One byte. -/
def scanByte : Scan UInt8 := do
  ensure data 1
  let b ← bare data (← index)
  advance 1
  return b

/-- A number of bytes. -/
def scanTake (n : Nat) : Scan Bytes := do
  ensure data n
  let bs ← bares data (← index) n
  advance n
  return bs

/-! ## Walks with an index -/

/-- Goes a walk, with the calls in it made by `call`. -/
def Walk.scan (call : Scan Unit) : {α : Type} → {r : Reader α} → Walk inner r → Scan α
  | _, _, .done x => pure x
  | _, _, .position => index
  | _, _, .failAt at_ cause => throw ⟨cause, at_⟩
  | _, _, .peek => scanPeek data
  | _, _, .byte => scanByte data
  | _, _, .take n => scanTake data n
  | _, _, .inner => call
  | _, _, .bind w v => w.scan call >>= fun x => (v x).scan call
  | _, _, @Walk.choose _ _ p _ _ _ w w' => if p then w.scan call else w'.scan call

/-- Passes over an item, with calls nested at most `depth` deep. -/
def scanSkip : Nat → Scan Unit
  | 0 => fun _ => none
  | depth + 1 => do
    let nested ← (Walk.skipHead : Walk (pure ()) skipHead).scan data (pure ())
    (Walk.skipNested .inner nested : Walk skip _).scan data (scanSkip depth)

/-- Goes a walk, with calls nested at most one deeper than the data is long. -/
def Walk.run {r : Reader α} (w : Walk skip r) : Scan α :=
  w.scan data (scanSkip data (data.length + 1))

end Scanner

section Steps

variable {ε : Type} {s : ScanOf ε α} {t : α → ScanOf ε β} {q : Nat}

theorem bind_of_ok {x : α} (h : s p = some (.ok x, q)) : (s >>= t) p = t x q := by
  simp only [Bind.bind, ExceptT.bind, ExceptT.mk, ExceptT.bindCont, StateT.bind, h, Option.bind]

theorem bind_of_error {e : ε} (h : s p = some (.error e, q)) :
    (s >>= t) p = some (.error e, q) := by
  simp only [Bind.bind, ExceptT.bind, ExceptT.mk, ExceptT.bindCont, StateT.bind, h, Option.bind]
  rfl

theorem adapt_of {ε' : Type} {f : ε → ε'} {out : Except ε α} (h : s p = some (out, q)) :
    s.adapt f p = some (out.mapError f, q) := by
  change (s p).bind _ = _
  rw [h]
  rfl

end Steps

/-! ## Readers at an index -/

/-- From an index on, forward and inside the data, a computation comes to what a reader makes of the
bytes there. -/
def Mirrors (data : Bytes) (s : Scan α) (r : Reader α) (p : Nat) : Prop :=
  ∃ out q, s p = some (out, q) ∧ p ≤ q ∧ q ≤ data.length ∧
    r ⟨p, data.drop p⟩ = out.map fun x => (x, ⟨q, data.drop q⟩)

theorem mirrors_pure (hp : p ≤ data.length) (x : α) : Mirrors data (pure x) (pure x) p :=
  ⟨.ok x, p, rfl, Nat.le_refl p, hp, rfl⟩

theorem mirrors_index (hp : p ≤ data.length) : Mirrors data index position p :=
  ⟨.ok p, p, rfl, Nat.le_refl p, hp, rfl⟩

theorem mirrors_throw (hp : p ≤ data.length) (e : Error) :
    Mirrors data (throw e : Scan α) (failAt e.position e.cause) p :=
  ⟨.error e, p, rfl, Nat.le_refl p, hp, rfl⟩

/-- Only what comes of a computation matters. -/
theorem Mirrors.congr {s t : Scan α} {r : Reader α} (hst : s p = t p) (h : Mirrors data t r p) :
    Mirrors data s r p := by
  obtain ⟨out, q, ht, hrest⟩ := h
  exact ⟨out, q, hst.trans ht, hrest⟩

theorem Mirrors.bind {s : Scan α} {r : Reader α} {t : α → Scan β} {f : α → Reader β}
    (h : Mirrors data s r p)
    (hf : ∀ x q, s p = some (.ok x, q) → p ≤ q → q ≤ data.length → Mirrors data (t x) (f x) q) :
    Mirrors data (s >>= t) (r >>= f) p := by
  obtain ⟨out, q, hs, hpq, hq, hr⟩ := h
  cases out with
  | error e =>
    refine ⟨.error e, q, bind_of_error hs, hpq, hq, ?_⟩
    simp only [Bind.bind, StateT.bind, hr, Except.map, Except.bind]
  | ok x =>
    obtain ⟨out', q', ht, hqq', hq', hf⟩ := hf x q hs hpq hq
    refine ⟨out', q', (bind_of_ok hs).trans ht, Nat.le_trans hpq hqq', hq', ?_⟩
    simp only [Bind.bind, StateT.bind, hr, Except.map, Except.bind]
    exact hf

theorem mirrors_ite {c : Prop} [Decidable c] {s s' : Scan α} {r r' : Reader α}
    (h : Mirrors data s r p) (h' : Mirrors data s' r' p) :
    Mirrors data (if c then s else s') (if c then r else r') p := by
  by_cases hc : c
  · rw [if_pos hc, if_pos hc]
    exact h
  · rw [if_neg hc, if_neg hc]
    exact h'

/-! ## Accesses -/

theorem ensure_of_le {count : Nat} (h : p + count ≤ data.length) :
    ensure data count p = some (.ok (), p) := by
  have hminus : minus data.length count p = some (.ok (data.length - count), p) :=
    if_pos (by omega)
  rw [ensure, bind_of_ok rfl, if_neg (by omega), bind_of_ok hminus, if_neg (by omega)]
  rfl

theorem ensure_of_lt {count : Nat} (h : data.length < p + count) :
    ensure data count p = some (.error ⟨.malformed .endOfData, p⟩, p) := by
  rw [ensure, bind_of_ok rfl]
  by_cases hcount : data.length < count
  · rw [if_pos hcount]
    rfl
  · have hminus : minus data.length count p = some (.ok (data.length - count), p) :=
      if_pos (by omega)
    rw [if_neg hcount, bind_of_ok hminus, if_pos (by omega)]
    rfl

theorem bare_of_lt {i : Nat} (h : i < data.length) : bare data i p = some (.ok data[i], p) := by
  rw [bare, List.getElem?_eq_getElem h]
  rfl

theorem bares_of_le {i n : Nat} (h : i + n ≤ data.length) :
    bares data i n p = some (.ok ((data.drop i).take n), p) := by
  induction n generalizing i with
  | zero => rfl
  | succ n ih =>
    have hi : i < data.length := by omega
    rw [List.drop_eq_getElem_cons hi, List.take_succ_cons, bares, bind_of_ok (bare_of_lt hi),
      bind_of_ok (ih (by omega))]
    rfl

theorem split?_of_le {n : Nat} {bs : Bytes} (h : n ≤ bs.length) :
    split? n bs = some (bs.take n, bs.drop n) := by
  have hsplit := split?_append (bs.take n) (bs.drop n)
  rwa [List.length_take_of_le h, List.take_append_drop] at hsplit

theorem split?_of_lt {n : Nat} {bs : Bytes} (h : bs.length < n) : split? n bs = none := by
  cases hsplit : split? n bs with
  | none => rfl
  | some q =>
    obtain ⟨hlength, hbs⟩ := split?_spec hsplit
    rw [hbs, List.length_append] at h
    omega

/-- Behind the test there are enough bytes; where it fails, a reader finds the data at its end. -/
theorem mirrors_ensured {n : Nat} {s : Scan α} {r : Reader α} (hp : p ≤ data.length)
    (hleft : p + n ≤ data.length → Mirrors data s r p)
    (hends : data.length < p + n →
      r ⟨p, data.drop p⟩ = .error ⟨.malformed .endOfData, p⟩) :
    Mirrors data (ensure data n >>= fun _ => s) r p := by
  by_cases h : p + n ≤ data.length
  · exact .congr (bind_of_ok (ensure_of_le h)) (hleft h)
  · have hshort : data.length < p + n := Nat.lt_of_not_le h
    exact ⟨.error _, p, bind_of_error (ensure_of_lt hshort), Nat.le_refl p, hp, hends hshort⟩

theorem mirrors_take (hp : p ≤ data.length) (n : Nat) :
    Mirrors data (scanTake data n) (take n) p := by
  have hrest : (data.drop p).length = data.length - p := List.length_drop
  refine mirrors_ensured hp (fun h => ?_) fun h => ?_
  · refine ⟨.ok ((data.drop p).take n), p + n, ?_, Nat.le_add_right p n, h, ?_⟩
    · rw [bind_of_ok rfl, bind_of_ok (bares_of_le h), bind_of_ok rfl]
      rfl
    · rw [take, split?_of_le (hrest ▸ (by omega)), List.drop_drop]
      rfl
  · rw [take, split?_of_lt (hrest ▸ (by omega))]

theorem mirrors_peek (hp : p ≤ data.length) : Mirrors data (scanPeek data) peek p := by
  refine mirrors_ensured hp (fun h => ?_) fun h => ?_
  · refine ⟨.ok data[p], p, ?_, Nat.le_refl p, hp, ?_⟩
    · rw [bind_of_ok rfl, bare_of_lt h]
    · rw [List.drop_eq_getElem_cons h]
      rfl
  · rw [List.drop_eq_nil_of_le (by omega)]
    rfl

theorem mirrors_byte (hp : p ≤ data.length) : Mirrors data (scanByte data) byte p := by
  refine mirrors_ensured hp (fun h => ?_) fun h => ?_
  · refine ⟨.ok data[p], p + 1, ?_, Nat.le_succ p, h, ?_⟩
    · rw [bind_of_ok rfl, bind_of_ok (bare_of_lt h), bind_of_ok rfl]
      rfl
    · rw [List.drop_eq_getElem_cons h]
      rfl
  · rw [List.drop_eq_nil_of_le (by omega)]
    rfl

/-! ## Walks -/

/-- A walk mirrors its reader if its calls do, from the same index on. -/
theorem Walk.mirrors {call : Scan Unit} {r : Reader α} (w : Walk inner r) (hp : p ≤ data.length)
    (hcall : ∀ q, p ≤ q → q ≤ data.length → Mirrors data call inner q) :
    Mirrors data (w.scan data call) r p := by
  induction w generalizing p with
  | done x => exact mirrors_pure hp x
  | position => exact mirrors_index hp
  | failAt at_ cause => exact mirrors_throw hp ⟨cause, at_⟩
  | peek => exact mirrors_peek hp
  | byte => exact mirrors_byte hp
  | take n => exact mirrors_take hp n
  | inner => exact hcall p (Nat.le_refl p) hp
  | bind w v ihw ihv =>
    exact (ihw hp hcall).bind fun x q _ hpq hq =>
      ihv x hq fun q' hqq' => hcall q' (Nat.le_trans hpq hqq')
  | choose w w' ihw ihw' => exact mirrors_ite (ihw hp hcall) (ihw' hp hcall)

/-- Where a computation that mirrors a reader has a result, it has gone over what this takes. -/
theorem Mirrors.add_le {s : Scan α} {r : Reader α} {n q : Nat} {x : α} (h : Mirrors data s r p)
    (htakes : Takes n r) (hp : p ≤ data.length) (hs : s p = some (.ok x, q)) : p + n ≤ q := by
  obtain ⟨out, q', hs', hpq, hq, hr⟩ := h
  cases hs.symm.trans hs'
  have hle := htakes.le hr
  simp only [List.length_drop] at hle
  omega

theorem mirrors_scanSkip {depth : Nat} (hp : p ≤ data.length) (hdepth : data.length < p + depth) :
    Mirrors data (scanSkip data depth) skip p := by
  induction depth generalizing p with
  | zero => omega
  | succ depth ih =>
    have hhead : Mirrors data ((Walk.skipHead : Walk (pure ()) skipHead).scan data (pure ()))
        skipHead p := Walk.mirrors _ hp fun q _ hq => mirrors_pure hq ()
    rw [skip_eq]
    refine hhead.bind fun nested q hq hpq hle => Walk.mirrors _ hle fun q' hqq' hq' => ih hq' ?_
    -- The head of the item was one byte at least.
    have hmoved := hhead.add_le (Walk.sure_skipHead.takes skip_forward) hp hq
    omega

theorem Walk.run_mirrors {r : Reader α} (w : Walk skip r) (hp : p ≤ data.length) :
    Mirrors data (w.run data) r p :=
  w.mirrors hp fun _ _ hq => mirrors_scanSkip hq (by omega)

/-- A walk goes over a byte at least, wherever it has a result. -/
def Walk.Consumes {r : Reader α} (w : Walk skip r) (data : Bytes) : Prop :=
  ∀ p ≤ data.length, ∀ x q, w.run data p = some (.ok x, q) → p < q

theorem Walk.consumes {r : Reader α} (w : Walk skip r) (h : Takes 1 r) : w.Consumes data :=
  fun _ hp _ _ hrun => (w.run_mirrors hp).add_le h hp hrun

/-! ## Code of programs -/

/-- The instructions in code from some place on, each of them taken from the nine bytes there. -/
def scanInstructions (code : Bytes) (at_ off : Nat) : Scan (List Instruction) :=
  if off < code.length then do
    let op ← bare code off
    match Opcode.ofCode? op with
    | none => throw ⟨.malformed (.unknownOpcode op), at_⟩
    | some c => do
      let a ← bares code (off + 1) 4
      let b ← bares code (off + 5) 4
      let others ← scanInstructions code at_ (off + 9)
      return ⟨c, word32 a, word32 b⟩ :: others
  else pure []
termination_by code.length - off

/-- Where nine bytes are left, they are one by one what stands there. -/
theorem exists_nine {code : Bytes} {off : Nat} (h : off + 9 ≤ code.length) :
    ∃ op a₀ a₁ a₂ a₃ b₀ b₁ b₂ b₃, code.drop off =
      op :: a₀ :: a₁ :: a₂ :: a₃ :: b₀ :: b₁ :: b₂ :: b₃ :: code.drop (off + 9) := by
  have hlength : ((code.drop off).take 9).length = 9 := by
    rw [List.length_take, List.length_drop]
    omega
  have hsplit : code.drop off = (code.drop off).take 9 ++ code.drop (off + 9) := by
    rw [← List.drop_drop, List.take_append_drop]
  match (code.drop off).take 9, hlength, hsplit with
  | [op, a₀, a₁, a₂, a₃, b₀, b₁, b₂, b₃], _, hsplit =>
    exact ⟨op, a₀, a₁, a₂, a₃, b₀, b₁, b₂, b₃, hsplit⟩

/-- If code is a whole number of instructions, all that is looked at is in it. -/
theorem mirrors_scanInstructions {code : Bytes} {at_ off n : Nat}
    (hcode : code.length = off + 9 * n) (hp : p ≤ data.length) :
    Mirrors data (scanInstructions code at_ off) (instructions at_ (code.drop off)) p := by
  induction n generalizing off with
  | zero =>
    rw [scanInstructions, if_neg (by omega), List.drop_eq_nil_of_le (by omega)]
    exact mirrors_pure hp []
  | succ n ih =>
    have hroom : off + 9 ≤ code.length := by omega
    obtain ⟨op, a₀, a₁, a₂, a₃, b₀, b₁, b₂, b₃, hnine⟩ := exists_nine hroom
    have hop : bare code off p = some (.ok op, p) := by
      have hget : (code.drop off)[0]? = code[off]? := List.getElem?_drop
      rw [bare, ← hget, hnine]
      rfl
    have ha : bares code (off + 1) 4 p = some (.ok [a₀, a₁, a₂, a₃], p) := by
      rw [bares_of_le (by omega), ← List.drop_drop, hnine]
      rfl
    have hb : bares code (off + 5) 4 p = some (.ok [b₀, b₁, b₂, b₃], p) := by
      rw [bares_of_le (by omega), ← List.drop_drop, hnine]
      rfl
    rw [hnine, scanInstructions, instructions, if_pos (by omega)]
    refine .congr (bind_of_ok hop) ?_
    cases Opcode.ofCode? op with
    | none => exact mirrors_throw hp ⟨_, at_⟩
    | some c =>
      refine .congr ((bind_of_ok ha).trans (bind_of_ok hb)) ?_
      exact (ih (by omega)).bind fun others q _ _ hq => mirrors_pure hq _

/-! ## Loops -/

/-- The loops of the decoders stop where the data does, whatever count it announces for them. -/
structure LoopsStop : Prop where
  constants : Stops fun n => times n value
  texts : Stops fun n => times n text
  nodes : Stops fun n => times n planNode
  steps (count : Nat) : Stops fun n => times n (step count)
  branches (count : Nat) : Stops fun n => times n (branch count)
  dominance (count : Nat) : Stops fun n => times n (dominance count)
  guardrails : Stops fun n => times n guardrail
  decisions : Stops fun n => times n decision
  alternatives : Stops fun n => times n alternative
  trail : Stops fun n => times n trailEntry
  attributes (acc : AttributeSet) : Stops fun n => attributeEntries n acc
  entries {σ : Type} {visit : Bytes → σ → Reader σ} (w : ∀ k acc, Walk skip (visit k acc))
    (acc : σ) : Stops fun n => entriesBy visit n acc
  nestedItems : Stops fun n => skipNested skip (.items n)
  nestedEntries : Stops fun n => skipNested skip (.entries n)

theorem loopsStop : LoopsStop := by
  have hitems : ∀ {α : Type} {item : Reader α} {w : Walk skip item}, w.Sure →
      Stops fun n => times n item := fun h => stops_times (h.takes skip_forward)
  exact {
    constants := hitems Walk.sure_value
    texts := hitems Walk.sure_text
    nodes := hitems (w := .planNode) (.first (Walk.sure_function _))
    steps := fun count => hitems (w := .step count) (.later fun _ => .first Walk.sure_anyFunction)
    branches := fun count => hitems (w := .branch count) (.first (Walk.sure_function _))
    dominance := fun count => hitems (w := .dominance count) (.first (Walk.sure_function _))
    guardrails := hitems (w := .guardrail) (.first (Walk.sure_function _))
    decisions := hitems (w := .decision) (.first (Walk.sure_function _))
    alternatives := hitems (w := .alternative) (.first (Walk.sure_function _))
    trail := hitems (w := .trailEntry) (.first (Walk.sure_function _))
    attributes := stops_attributeEntries
    entries := stops_entriesBy
    nestedItems := stops_repeated takes_skip
    nestedEntries := stops_repeated (takes_key.bind fun _ => skip_forward) }

/-! ## Decoders -/

/-- Tests that the index is at the end of the data. -/
def scanFinish (data : Bytes) (what : String) : Scan Unit := do
  let p ← index
  if data.length ≤ p then pure () else throw ⟨.malformed (.trailing (utf8 what)), p⟩

/-- Goes a walk behind which nothing may follow. -/
def scanWhole (data : Bytes) (what : String) {r : Reader α} (w : Walk skip r) : Scan α := do
  let x ← w.run data
  scanFinish data what
  return x

theorem mirrors_scanFinish (hp : p ≤ data.length) (what : String) :
    Mirrors data (scanFinish data what) (finish what) p := by
  by_cases hend : data.length ≤ p
  · refine ⟨.ok (), p, ?_, Nat.le_refl p, hp, ?_⟩
    · rw [scanFinish, bind_of_ok rfl, if_pos hend]
      rfl
    · exact finish_nil (List.drop_eq_nil_of_le hend)
  · refine ⟨.error ⟨.malformed (.trailing (utf8 what)), p⟩, p, ?_, Nat.le_refl p, hp, ?_⟩
    · rw [scanFinish, bind_of_ok rfl, if_neg hend]
      rfl
    · exact finish_ne_nil fun hnil => hend (List.drop_eq_nil_iff.1 hnil)

theorem mirrors_scanWhole (hp : p ≤ data.length) (what : String) {r : Reader α}
    (w : Walk skip r) : Mirrors data (scanWhole data what w) (whole what r) p :=
  (w.run_mirrors hp).bind fun x _ _ _ hq =>
    (mirrors_scanFinish hq what).bind fun _ _ _ _ hq => mirrors_pure hq x

/-- From the start of the data, a computation comes to what a reader makes of all of it. -/
theorem Mirrors.run {s : Scan α} {r : Reader α} (h : Mirrors data s r 0) :
    ∃ q ≤ data.length, s 0 = some (r.run data, q) := by
  obtain ⟨out, q, hs, -, hq, hr⟩ := h
  refine ⟨q, hq, ?_⟩
  have hrun : r.run data = out := by
    have hstart : r (Cursor.start data) = out.map fun x => (x, ⟨q, data.drop q⟩) := hr
    rw [Reader.run, hstart]
    cases out <;> rfl
  rw [hrun, hs]

end Reader
end Wire

open Wire (Cursor Reader)
open Wire.Reader (LoopsStop Mirrors ScanOf Scan Walk adapt_of bind_of_error bind_of_ok loopsStop
  mirrors_scanInstructions mirrors_scanWhole scanInstructions scanWhole)

/-- The record that data is. -/
def TraceRecord.scan (data : Bytes) : Scan TraceRecord :=
  scanWhole data "TraceRecord" readFields.walk

/-- The options that data gives, on top of `base`. -/
def Options.scan (base : Options) (data : Bytes) : Scan Options :=
  scanWhole data "options" (readEntries.walk base)

/-- The blueprint that data is. -/
def Blueprint.scan (data : Bytes) : ScanOf BlueprintError Blueprint := do
  let (h, labels) ← (readFront.walk.run data).adapt .unreadable
  let catalog ← ExceptT.mk (pure ((Catalog.ofLabels labels).mapError .badCatalog))
  let p ← (scanWhole data "blueprint" readParts.walk).adapt .unreadable
  return assembled h catalog data p

theorem TraceRecord.scan_eq (data : Bytes) :
    ∃ q ≤ data.length, scan data 0 = some (decode data, q) := by
  rw [decode_eq_whole]
  exact (mirrors_scanWhole (Nat.zero_le _) _ readFields.walk).run

theorem Options.scan_eq (base : Options) (data : Bytes) :
    ∃ q ≤ data.length, scan base data 0 = some (decode base data, q) := by
  rw [decode_eq_whole]
  exact (mirrors_scanWhole (Nat.zero_le _) _ (readEntries.walk base)).run

theorem Blueprint.scan_eq (data : Bytes) :
    ∃ q ≤ data.length, scan data 0 = some (decode data, q) := by
  rw [decode_eq_whole, scan]
  -- The catalog is made in between, of the labels that both have read, and moves no index.
  obtain ⟨out, q, hs, -, hq, hr⟩ := readFront.walk.run_mirrors (Nat.zero_le data.length)
  have hfront : readFront (Cursor.start data) = out.map fun x => (x, ⟨q, data.drop q⟩) := hr
  rw [hfront]
  cases out with
  | error e =>
    refine ⟨q, hq, ?_⟩
    rw [bind_of_error (adapt_of hs)]
    rfl
  | ok front =>
    obtain ⟨h, labels⟩ := front
    rw [bind_of_ok (adapt_of hs)]
    dsimp only [Except.map, Except.mapError, Bind.bind, Except.bind]
    cases Catalog.ofLabels labels with
    | error e => exact ⟨q, hq, rfl⟩
    | ok catalog =>
      obtain ⟨out', q', hs', -, hq', hr'⟩ := mirrors_scanWhole hq "blueprint" readParts.walk
      refine ⟨q', hq', (bind_of_ok (x := catalog) (q := q) rfl).trans ?_⟩
      dsimp only
      rw [hr']
      cases out' with
      | error e => exact bind_of_error (adapt_of hs')
      | ok parts => exact bind_of_ok (adapt_of hs')

/-- **Decoding ends inside the data.**  Whatever bytes these are, and from any index in them on,
every walk comes to what its reader makes of the bytes there, with the index moved forward and not
behind the data, and has looked at bytes of the data alone.  Values, attributes, items that are
skipped and associations, whatever reads their entries, take a byte at least.  Loops stop where the
data does, though it may announce any count for them.  The code of a program is looked at inside
too, if it is a whole number of instructions.  And so blueprints, trace records and options are
decoded with an index as they are from a list. -/
theorem decoding_stays_inside (data : Bytes) :
    (∀ {α : Type} {r : Reader α} (w : Walk Reader.skip r) (p : Nat), p ≤ data.length →
      Mirrors data (w.run data) r p) ∧
    ((Walk.value : Walk Reader.skip Reader.value).Consumes data ∧
      (Walk.attributes : Walk Reader.skip Reader.attributes).Consumes data ∧
      (Walk.inner : Walk Reader.skip Reader.skip).Consumes data ∧
      ∀ {σ : Type} {visit : Bytes → σ → Reader σ} (w : ∀ k acc, Walk Reader.skip (visit k acc))
        (start : σ), (Walk.associationBy w start).Consumes data) ∧
    LoopsStop ∧
    (∀ (code : Bytes) (at_ p : Nat), code.length % 9 = 0 → p ≤ data.length →
      Mirrors data (scanInstructions code at_ 0) (Reader.instructions at_ code) p) ∧
    (∃ q ≤ data.length, Blueprint.scan data 0 = some (Blueprint.decode data, q)) ∧
    (∃ q ≤ data.length, TraceRecord.scan data 0 = some (TraceRecord.decode data, q)) ∧
    ∀ base, ∃ q ≤ data.length, Options.scan base data 0 = some (Options.decode base data, q) := by
  refine ⟨fun w p hp => w.run_mirrors hp, ⟨?_, ?_, ?_, fun w start => ?_⟩, loopsStop,
    fun code at_ p hcode hp => mirrors_scanInstructions (n := code.length / 9) (by omega) hp,
    Blueprint.scan_eq data, TraceRecord.scan_eq data, fun base => Options.scan_eq base data⟩
  · exact Walk.value.consumes (Walk.sure_value.takes Reader.skip_forward)
  · exact Walk.attributes.consumes (Walk.sure_attributes.takes Reader.skip_forward)
  · exact Walk.inner.consumes Reader.takes_skip
  · exact (Walk.associationBy w start).consumes
      ((Walk.sure_associationBy w start).takes Reader.skip_forward)

/-- The head of a record of `2 ^ 63 - 1` arguments, of which there is none. -/
example : (Walk.inner : Walk Reader.skip Reader.skip).run
    [102, 255, 255, 255, 255, 255, 255, 255, 255, 127, 115, 0] 0 =
      some (.error ⟨.malformed .endOfData, 12⟩, 12) := by rfl

end DecisionEngine
