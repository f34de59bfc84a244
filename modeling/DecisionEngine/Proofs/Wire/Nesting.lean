import DecisionEngine.Proofs.Wire.Walks
/-!
# Items inside items

To pass over an item is to read its head and to pass over what is nested in it.  The depth with
which this begins is no bound: what is nested is shorter than what it is nested in, so all depths
beyond the number of the bytes that are left come to the same.  In the same way a loop ends within
as many rounds as bytes are left, whatever count it is given, since every round takes a byte.

* `skipHead`, `skipNested` — the head of an item, and what follows it.
* `skipWithin_congr`, `skip_eq` — passing over an item, with no depth.
* `associationBy` — an association whose entries are given to any reader at all.
* `associationWith_eq` — entries that are read by key are such an association.
* `Stops` — a loop whose count is beyond what is left comes to an error that no count changes.
-/

namespace DecisionEngine
namespace Wire
namespace Reader

variable {α β σ : Type} {inner : Reader Unit}

/-! ## Passing over items -/

/-- What the head of an item says is nested in it: items, or entries of an association. -/
inductive Nested
  | items (n : Nat)
  | entries (n : Nat)

/-- Passes over the head of an item; an item in which nothing is nested is all head. -/
def skipHead : Reader Nested := do
  match ← peekTag with
  | some .text | some .symbol | some .binary =>
    let _ ← counted
    return .items 0
  | some .real =>
    let _ ← real
    return .items 0
  | some .function =>
    let _ ← byte
    let arguments ← varint
    let _ ← symbol
    return .items arguments
  | some .association => return .entries (← associationHead)
  | some .rule | none => fail (.malformed .unknownTag)
  | some .int8 | some .int16 | some .int32 | some .int64 =>
    let _ ← int
    return .items 0

/-- Passes over what is nested. -/
def skipNested (item : Reader Unit) : Nested → Reader Unit
  | .items n => repeated n item
  | .entries n => repeated n do
    let _ ← key
    item

theorem skipWithin_succ (depth : Nat) :
    skipWithin (depth + 1) = skipHead >>= skipNested (skipWithin depth) := by
  rw [skipWithin, skipHead, bind_assoc]
  congr 1
  funext tag
  rcases tag with _ | tag
  · rfl
  · cases tag <;> simp only [bind_assoc, pure_bind] <;> rfl

namespace Walk

def skipHead : Walk inner skipHead :=
  .bind .peekTag fun
    | some .text | some .symbol | some .binary => .map _ .counted
    | some .real => .map _ .real
    | some .function => .bind .byte fun _ => .bind .varint fun _ => .map _ .symbol
    | some .association => .map _ .associationHead
    | some .rule | none => .fail _
    | some .int8 | some .int16 | some .int32 | some .int64 => .map _ .int

def skipNested {item : Reader Unit} (w : Walk inner item) : ∀ n, Walk inner (skipNested item n)
  | .items n => .repeated w n
  | .entries n => .repeated (.bind .key fun _ => w) n

theorem sure_skipHead : (skipHead : Walk inner _).Sure := by
  refine .later fun tag => ?_
  rcases tag with _ | tag
  · exact sure_fail _
  · cases tag with
    | text | symbol | binary => exact .first sure_counted
    | real => exact .first sure_real
    | function => exact .first .byte
    | association => exact .first sure_associationHead
    | rule => exact sure_fail _
    | int8 | int16 | int32 | int64 => exact .first sure_int

end Walk

theorem takes_skipWithin (depth : Nat) : Takes 1 (skipWithin depth) := by
  induction depth with
  | zero => exact fun c x c' h => nomatch h
  | succ depth ih =>
    have hinner : Takes 0 (skipWithin depth) := ih.mono (Nat.zero_le 1)
    rw [skipWithin_succ]
    exact (Walk.sure_skipHead.takes hinner).bind fun n => (Walk.skipNested .inner n).forward hinner

theorem takes_skip : Takes 1 skip := fun c => takes_skipWithin _ c

theorem skip_forward : Takes 0 skip := takes_skip.mono (Nat.zero_le 1)

theorem takes_key : Takes 1 key := Walk.sure_key.takes skip_forward

/-- What is done often is done in the same way where all of it starts with few enough bytes. -/
theorem repeated_congr {r r' : Reader Unit} {bound : Nat} (hr : Takes 0 r)
    (h : ∀ c : Cursor, c.rest.length ≤ bound → r c = r' c) (n : Nat) {c : Cursor}
    (hc : c.rest.length ≤ bound) : repeated n r c = repeated n r' c := by
  induction n generalizing c with
  | zero => rfl
  | succ n ih =>
    simp only [repeated, Bind.bind, StateT.bind, ← h c hc]
    cases hrun : r c with
    | error e => rfl
    | ok p => exact ih (Nat.le_trans (hr.le hrun) hc)

theorem skipNested_congr {r r' : Reader Unit} {bound : Nat} (hr : Takes 0 r)
    (h : ∀ c : Cursor, c.rest.length ≤ bound → r c = r' c) (nested : Nested) {c : Cursor}
    (hc : c.rest.length ≤ bound) : skipNested r nested c = skipNested r' nested c := by
  cases nested with
  | items n => exact repeated_congr hr h n hc
  | entries n =>
    have hkey : Takes 0 key := Walk.key.forward hr
    refine repeated_congr (hkey.bind fun _ => hr) (fun c hc => ?_) n hc
    simp only [Bind.bind, StateT.bind]
    cases hrun : key c with
    | error e => rfl
    | ok p => exact h p.2 (Nat.le_trans (hkey.le hrun) hc)

/-- All depths beyond the number of the bytes that are left come to the same. -/
theorem skipWithin_congr {depth depth' : Nat} {c : Cursor} (h : c.rest.length < depth)
    (h' : c.rest.length < depth') : skipWithin depth c = skipWithin depth' c := by
  induction depth generalizing depth' c with
  | zero => exact absurd h (Nat.not_lt_zero _)
  | succ depth ih =>
    cases depth' with
    | zero => exact absurd h' (Nat.not_lt_zero _)
    | succ depth' =>
      have hinner : Takes 0 (skipWithin depth) := (takes_skipWithin depth).mono (Nat.zero_le 1)
      simp only [skipWithin_succ, Bind.bind, StateT.bind]
      cases hrun : skipHead c with
      | error e => rfl
      | ok p =>
        -- Both depths are one less now, and so is at least what is left.
        have hless : p.2.rest.length + 1 ≤ c.rest.length :=
          (Walk.sure_skipHead.takes hinner).le hrun
        exact skipNested_congr hinner (fun c hc => ih (by omega) (by omega)) p.1 (Nat.le_refl _)

theorem skip_congr {depth : Nat} {c : Cursor} (h : c.rest.length < depth) :
    skip c = skipWithin depth c := skipWithin_congr (Nat.lt_succ_self _) h

/-- To pass over an item is to read its head and to pass over what is nested in it. -/
theorem skip_eq : skip = skipHead >>= skipNested skip := by
  funext c
  change skipWithin (c.rest.length + 1) c = (skipHead >>= skipNested skip) c
  simp only [skipWithin_succ, Bind.bind, StateT.bind]
  cases hrun : skipHead c with
  | error e => rfl
  | ok p =>
    have hless : p.2.rest.length + 1 ≤ c.rest.length :=
      (Walk.sure_skipHead.takes skip_forward).le hrun
    have hcongr : ∀ c' : Cursor, c'.rest.length ≤ p.2.rest.length →
        skip c' = skipWithin c.rest.length c' := fun c' hc' => skip_congr (by omega)
    exact (skipNested_congr skip_forward hcongr p.1 (Nat.le_refl _)).symm

/-! ## Associations -/

/-- Passes over an item if nothing was taken from a position on. -/
def skipUntaken (before : Nat) : Reader Unit := do
  if (← position) = before then skip else pure ()

/-- Entries of an association, each given to `visit` with what was gathered before; where this
stays in front of the value of an entry, the value is skipped. -/
def entriesBy (visit : Bytes → σ → Reader σ) : Nat → σ → Reader σ
  | 0, acc => pure acc
  | n + 1, acc => do
    let k ← key
    let before ← position
    let gathered ← visit k acc
    skipUntaken before
    entriesBy visit n gathered

/-- An association whose entries are gathered by `visit`, which may be any reader. -/
def associationBy (visit : Bytes → σ → Reader σ) (start : σ) : Reader σ := do
  entriesBy visit (← associationHead) start

/-- Where every known entry takes a byte, a value is skipped just if its key is not known. -/
theorem entriesWith_eq {visit : Bytes → σ → Option (Reader σ)}
    (h : ∀ k acc, ∀ r ∈ visit k acc, Takes 1 r) (n : Nat) (acc : σ) :
    entriesWith visit n acc = entriesBy (fun k acc => (visit k acc).getD (pure acc)) n acc := by
  induction n generalizing acc with
  | zero => rfl
  | succ n ih =>
    rw [entriesWith, entriesBy]
    congr 1
    funext k c
    cases hvisit : visit k acc with
    | none =>
      -- Nothing reads the value, so the position is what it was.
      have hskip : skipUntaken c.position c = skip c := by
        simp only [skipUntaken, position, Bind.bind, StateT.bind, Except.bind, if_true]
      have hstays : (pure acc : Reader σ) c = .ok (acc, c) := rfl
      simp only [Option.getD_none, position, Bind.bind, StateT.bind, Except.bind, hstays, hskip, ih]
    | some r =>
      simp only [Option.getD_some, position, Bind.bind, StateT.bind, Except.bind, ih]
      cases hrun : r c with
      | error e => rfl
      | ok p =>
        obtain ⟨taken, htaken, -, hposition⟩ := h k acc r hvisit c p.1 p.2 hrun
        have hmoved : skipUntaken c.position p.2 = .ok ((), p.2) := by
          simp only [skipUntaken, position, Bind.bind, StateT.bind, Except.bind]
          rw [if_neg (by omega)]
          rfl
        dsimp only
        rw [hmoved]

theorem associationWith_eq {visit : Bytes → σ → Option (Reader σ)}
    (h : ∀ k acc, ∀ r ∈ visit k acc, Takes 1 r) (start : σ) :
    associationWith visit start =
      associationBy (fun k acc => (visit k acc).getD (pure acc)) start := by
  unfold associationWith associationBy
  simp only [entriesWith_eq h]

namespace Walk

def skipUntaken (before : Nat) : Walk skip (skipUntaken before) :=
  .bind .position fun _ => .choose .inner (.done _)

def entriesBy {visit : Bytes → σ → Reader σ} (w : ∀ k acc, Walk skip (visit k acc)) :
    ∀ n acc, Walk skip (entriesBy visit n acc)
  | 0, _ => .done _
  | n + 1, acc => .bind .key fun k => .bind .position fun before => .bind (w k acc) fun _ =>
    .bind (.skipUntaken before) fun _ => entriesBy w n _

def associationBy {visit : Bytes → σ → Reader σ} (w : ∀ k acc, Walk skip (visit k acc))
    (start : σ) : Walk skip (associationBy visit start) :=
  .bind .associationHead fun n => entriesBy w n start

theorem sure_associationBy {visit : Bytes → σ → Reader σ} (w : ∀ k acc, Walk skip (visit k acc))
    (start : σ) : (Walk.associationBy w start).Sure := .first sure_associationHead

/-- How an entry is read, if its key is known. -/
structure Entry (acc : σ) (entry : Option (Reader σ)) where
  walk : Walk skip (entry.getD (pure acc))
  takes : ∀ r ∈ entry, Takes 1 r

def Entry.unknown (acc : σ) : Entry acc none := ⟨.done acc, fun _ hr => nomatch hr⟩

/-- One known entry, in front of the others. -/
def Entry.known {acc : σ} {p : Prop} [Decidable p] {r : Reader σ} {others : Option (Reader σ)}
    (w : Walk skip r) (hw : w.Sure) (e : Entry acc others) :
    Entry acc (if p then some r else others) where
  walk := .ofEq (apply_ite (Option.getD · (pure acc)) p (some r) others).symm (.choose w e.walk)
  takes := by
    intro r' hr'
    split at hr'
    · exact Option.mem_some.1 hr' ▸ hw.takes skip_forward
    · exact e.takes r' hr'

def associationWith {visit : Bytes → σ → Option (Reader σ)}
    (e : ∀ k acc, Entry acc (visit k acc)) (start : σ) :
    Walk skip (associationWith visit start) :=
  .ofEq (associationWith_eq (fun k acc => (e k acc).takes) start).symm
    (associationBy (fun k acc => (e k acc).walk) start)

end Walk

/-! ## Loops -/

/-- Beyond the number of the bytes that are left, all counts of a loop come to the same error. -/
def Stops (loop : Nat → Reader α) : Prop :=
  ∀ c : Cursor, ∃ e, ∀ n, c.rest.length < n → loop n c = .error e

/-- A loop stops each of whose rounds takes a byte. -/
theorem stops_of_rounds {τ : Type} (loop : Nat → σ → Reader α) (round : σ → Reader τ)
    (next : τ → σ) (close : τ → α → Reader α)
    (hloop : ∀ n s, loop (n + 1) s = round s >>= fun t => loop n (next t) >>= close t)
    (h : ∀ s, Takes 1 (round s)) (s : σ) : Stops fun n => loop n s := by
  intro c
  -- The first round either fails, for every count alike, or leaves fewer bytes to the others.
  induction hlength : c.rest.length using Nat.strongRecOn generalizing s c with
  | _ length ih =>
    cases hrun : round s c with
    | error e =>
      refine ⟨e, fun n hn => ?_⟩
      obtain ⟨n, rfl⟩ : ∃ m, n = m + 1 := ⟨n - 1, by omega⟩
      simp only [hloop, Bind.bind, StateT.bind, hrun, Except.bind]
    | ok p =>
      have hless := (h s).le hrun
      obtain ⟨e, he⟩ := ih p.2.rest.length (by omega) (next p.1) p.2 rfl
      refine ⟨e, fun n hn => ?_⟩
      obtain ⟨n, rfl⟩ : ∃ m, n = m + 1 := ⟨n - 1, by omega⟩
      have hrest : loop n (next p.1) p.2 = .error e := he n (by omega)
      simp only [hloop, Bind.bind, StateT.bind, hrun, Except.bind, hrest]

theorem stops_times {item : Reader α} (h : Takes 1 item) : Stops fun n => times n item :=
  stops_of_rounds (fun n (_ : Unit) => times n item) (fun _ => item) (fun _ => ())
    (fun x xs => pure (x :: xs)) (fun _ _ => rfl) (fun _ => h) ()

theorem stops_repeated {item : Reader Unit} (h : Takes 1 item) :
    Stops fun n => repeated n item :=
  stops_of_rounds (fun n (_ : Unit) => repeated n item) (fun _ => item) id (fun _ => pure)
    (fun _ _ => by simp only [repeated, bind_pure]) (fun _ => h) ()

theorem stops_attributeEntries (acc : AttributeSet) : Stops fun n => attributeEntries n acc :=
  stops_of_rounds attributeEntries
    (fun acc => key >>= fun k => value >>= fun v => pure (acc.set k v)) id (fun _ => pure)
    (fun _ _ => by simp only [attributeEntries, bind_assoc, pure_bind, bind_pure, id])
    (fun acc => takes_key.bind fun k => (Walk.map (acc.set k) .value).forward skip_forward) acc

/-- The entries of an association stop, whatever reads them. -/
theorem stops_entriesBy {visit : Bytes → σ → Reader σ} (w : ∀ k acc, Walk skip (visit k acc))
    (acc : σ) : Stops fun n => entriesBy visit n acc :=
  stops_of_rounds (entriesBy visit)
    (fun acc => key >>= fun k => position >>= fun before => visit k acc >>= fun gathered =>
      skipUntaken before >>= fun _ => pure gathered) id (fun _ => pure)
    (fun _ _ => by simp only [entriesBy, bind_assoc, pure_bind, bind_pure, id])
    (fun acc => takes_key.bind fun k => (Walk.bind .position fun before => .bind (w k acc) fun _ =>
      .map _ (.skipUntaken before)).forward skip_forward) acc

end Reader
end Wire
end DecisionEngine
