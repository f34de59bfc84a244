import DecisionEngine.Expr.Grammar
/-!
# What the readers read

What a reader reads does not depend on where its tokens stand in the source. Up to those places the
readers are described here by equations, one for each way a reader goes. From them follows how the
levels of the grammar hang together: a level reads what the tighter one reads where no operator of
its own follows.

* `Expr.unplaced` — an expression without the places it was read at.
* `Expr.reading` — the result of a reader, without places.
* `Expr.reading_comparison_next` — the operators tighter than `!` act alike between two operands
  that nothing follows that binds.
* `Expr.reading_brackets` — what is read in brackets.
-/

namespace DecisionEngine

/-- The expression without the bytes of its source that its parts come from. -/
def Expr.unplaced : Expr → Expr
  | .literal _ v => .literal 0 v
  | .reference r => .reference ⟨0, r.scope, r.name⟩
  | .present _ r => .present 0 ⟨0, r.scope, r.name⟩
  | .unary _ op x => .unary 0 op x.unplaced
  | .binary _ op l r => .binary 0 op l.unplaced r.unplaced

/-- The mark that an operator is written with. -/
def UnaryOp.mark : UnaryOp → Expr.Mark
  | not => .bang
  | neg => .minus

/-- The mark that an operator is written with. -/
def BinaryOp.mark : BinaryOp → Expr.Mark
  | add => .plus
  | sub => .minus
  | mul => .times
  | div => .slash
  | mod => .percent
  | eq => .eq
  | ne => .ne
  | lt => .lt
  | le => .le
  | gt => .gt
  | ge => .ge
  | and => .and
  | or => .or

/-- The operators that bind looser than `!`. -/
def BinaryOp.joins : BinaryOp → Bool
  | and => true
  | or => true
  | _ => false

namespace Expr

@[simp] theorem unplaced_unplaced (x : Expr) : x.unplaced.unplaced = x.unplaced := by
  induction x with
  | literal | reference | present => rfl
  | unary _ op x ih => simp only [unplaced, ih]
  | binary _ op l r ihl ihr => simp only [unplaced, ihl, ihr]

/-- What a reader read, without places, and the tokens behind it. -/
def reading {P : Expr × List Token → Prop} (m : Except Error { r : Expr × List Token // P r }) :
    Option (Expr × List Token) :=
  match m with
  | .error _ => none
  | .ok r => some (r.1.1.unplaced, r.1.2)

theorem unplaced_of_reading {P : Expr × List Token → Prop}
    {m : Except Error { r : Expr × List Token // P r }} {x : Expr} {back : List Token}
    (h : reading m = some (x, back)) : x.unplaced = x := by
  cases m with
  | error e => cases h
  | ok r =>
    cases h
    exact unplaced_unplaced _

section Readers

variable {finish : Nat} {level : Chain} {l l' a x : Expr} {t c : Token}
  {ts rest back : List Token} {op : BinaryOp} {found : Option (Expr × List Token)}

/-! ## Chains -/

/-- No operator of a level comes next. -/
def Stops (level : Chain) (ts : List Token) : Prop := ∀ t ∈ ts.head?, level.operator? t = none

theorem stops_nil : Stops level [] := nofun

theorem stops_cons : Stops level (t :: ts) ↔ level.operator? t = none := by simp [Stops]

/-- A chain ends where no operator of its level follows. -/
theorem reading_chainFrom_of_stops (h : Stops level ts) :
    reading (chainFrom finish level l ts) = some (l.unplaced, ts) := by
  cases ts with
  | nil =>
    rw [chainFrom]
    rfl
  | cons t rest =>
    rw [chainFrom, stops_cons.1 h]
    rfl

theorem reading_chainFrom_cons (ht : level.operator? t = some op) :
    reading (chainFrom finish level l (t :: rest)) =
      match operand finish level rest with
      | .error _ => none
      | .ok r => reading (chainFrom finish level (.binary t.position op l r.1.1) r.1.2) := by
  rw [chainFrom, ht]
  cases operand finish level rest with
  | error e => rfl
  | ok r =>
    obtain ⟨⟨x, mid⟩, h⟩ := r
    show reading (chainFrom finish level (.binary t.position op l x) mid >>= _) =
      reading (chainFrom finish level (.binary t.position op l x) mid)
    cases chainFrom finish level (.binary t.position op l x) mid with
    | error e => rfl
    | ok r => rfl

/-- The places in the left part of a chain make no difference. -/
theorem reading_chainFrom_congr {l l' : Expr} {ts : List Token} (h : l.unplaced = l'.unplaced) :
    reading (chainFrom finish level l ts) = reading (chainFrom finish level l' ts) := by
  cases ts with
  | nil => rw [reading_chainFrom_of_stops stops_nil, reading_chainFrom_of_stops stops_nil, h]
  | cons t rest =>
    cases ht : level.operator? t with
    | none =>
      have hstops : Stops level (t :: rest) := stops_cons.2 ht
      rw [reading_chainFrom_of_stops hstops, reading_chainFrom_of_stops hstops, h]
    | some op =>
      rw [reading_chainFrom_cons ht, reading_chainFrom_cons ht]
      cases operand finish level rest with
      | error e => rfl
      | ok r =>
        obtain ⟨⟨x, mid⟩, hlt⟩ := r
        -- By induction on the tokens that are left: both chains go on with the same operand.
        have hshort : mid.length < (t :: rest).length := Nat.lt_succ_of_lt hlt
        refine reading_chainFrom_congr ?_
        simp only [unplaced, h]
termination_by ts.length
decreasing_by exact hshort

/-- A chain that goes on is one with a longer left part. -/
theorem reading_chainFrom_next (ht : level.operator? t = some op) :
    reading (chainFrom finish level l (t :: rest)) =
      (reading (operand finish level rest)).bind fun r =>
        reading (chainFrom finish level (.binary 0 op l r.1) r.2) := by
  rw [reading_chainFrom_cons ht]
  cases operand finish level rest with
  | error e => rfl
  | ok r =>
    refine reading_chainFrom_congr ?_
    simp only [unplaced, unplaced_unplaced]

theorem reading_chain : reading (chain finish level ts) =
    (reading (operand finish level ts)).bind fun r => reading (chainFrom finish level r.1 r.2) := by
  rw [chain]
  cases operand finish level ts with
  | error e => rfl
  | ok r =>
    obtain ⟨⟨x, mid⟩, h⟩ := r
    show reading (chainFrom finish level x mid >>= _) =
      reading (chainFrom finish level x.unplaced mid)
    rw [← reading_chainFrom_congr (unplaced_unplaced x).symm]
    cases chainFrom finish level x mid with
    | error e => rfl
    | ok r => rfl

/-- A chain is one operand where no operator of its level follows. -/
theorem reading_chain_of_stops (hl : reading (operand finish level ts) = found)
    (h : ∀ r ∈ found, Stops level r.2) : reading (chain finish level ts) = found := by
  rw [reading_chain, hl]
  cases found with
  | none => rfl
  | some r => rw [Option.bind_some, reading_chainFrom_of_stops (h r rfl), unplaced_of_reading hl]

/-- A chain of two operands. -/
theorem reading_chain_next (hl : reading (operand finish level ts) = some (a, t :: rest))
    (ht : level.operator? t = some op) (hr : reading (operand finish level rest) = found)
    (h : ∀ r ∈ found, Stops level r.2) :
    reading (chain finish level ts) = found.map fun r => (.binary 0 op a r.1, r.2) := by
  rw [reading_chain, hl, Option.bind_some, reading_chainFrom_next ht, hr]
  cases found with
  | none => rfl
  | some r =>
    rw [Option.bind_some, reading_chainFrom_of_stops (h r rfl)]
    simp only [unplaced, unplaced_of_reading hl, unplaced_of_reading hr, Option.map_some]

theorem operand_or : operand finish .or ts = chain finish .and ts := by rw [operand]

theorem operand_and : operand finish .and ts = negation finish ts := by rw [operand]

theorem operand_sum : operand finish .sum ts = chain finish .term ts := by rw [operand]

theorem operand_term : operand finish .term ts = negative finish ts := by rw [operand]

/-! ## Comparisons -/

theorem reading_comparison : reading (comparison finish ts) =
    (reading (chain finish .sum ts)).bind fun l =>
      match l.2 with
      | [] => some l
      | t :: after =>
        match comparison? t with
        | none => some l
        | some op =>
          (reading (chain finish .sum after)).map fun r => (.binary 0 op l.1 r.1, r.2) := by
  rw [comparison]
  cases chain finish .sum ts with
  | error e => rfl
  | ok r =>
    obtain ⟨⟨l, rest⟩, h⟩ := r
    cases rest with
    | nil => rfl
    | cons t after =>
      cases ht : comparison? t with
      | none => simp [reading, bind, Except.bind, pure, Except.pure, ht]
      | some op =>
        simp only [reading, bind, Except.bind, pure, Except.pure, ht, Option.bind_some]
        cases chain finish .sum after with
        | error e => rfl
        | ok r => rfl

/-- Nothing comes next that binds tighter than `!`. -/
structure Loose (ts : List Token) : Prop where
  term : Stops .term ts
  sum : Stops .sum ts
  comparison : ∀ t ∈ ts.head?, comparison? t = none

/-- A comparison is one sum where no comparison follows. -/
theorem reading_comparison_of_sum (hl : reading (chain finish .sum ts) = found)
    (h : ∀ r ∈ found, Loose r.2) : reading (comparison finish ts) = found := by
  rw [reading_comparison, hl]
  cases found with
  | none => rfl
  | some r =>
    obtain ⟨x, back⟩ := r
    cases back with
    | nil => rfl
    | cons t after =>
      have hnone : comparison? t = none := (h _ rfl).comparison t rfl
      simp only [Option.bind_some, hnone]

/-- A sum is one operand where no operator of either level follows. -/
theorem reading_sum_of_stops (hl : reading (negative finish ts) = found)
    (hterm : ∀ r ∈ found, Stops .term r.2) (hsum : ∀ r ∈ found, Stops .sum r.2) :
    reading (chain finish .sum ts) = found := by
  refine reading_chain_of_stops ?_ hsum
  rw [operand_sum]
  refine reading_chain_of_stops ?_ hterm
  rw [operand_term]
  exact hl

/-- A comparison is one operand where nothing follows that binds. -/
theorem reading_comparison_of_loose (hl : reading (negative finish ts) = found)
    (h : ∀ r ∈ found, Loose r.2) : reading (comparison finish ts) = found :=
  reading_comparison_of_sum
    (reading_sum_of_stops hl (fun r hr => (h r hr).term) fun r hr => (h r hr).sum) h

/-- A token with the mark of an operator tighter than `!` stands for it at one level, and for none
at the levels below. -/
theorem level_of_mark (ht : t.lexeme = .mark op.mark) (hop : op.joins = false) :
    Chain.term.operator? t = some op ∨
      Chain.term.operator? t = none ∧ Chain.sum.operator? t = some op ∨
      Chain.term.operator? t = none ∧ Chain.sum.operator? t = none ∧ comparison? t = some op := by
  cases op <;> simp_all [Chain.operator?, Token.isMark, comparison?, BinaryOp.mark, BinaryOp.joins]

/-- A comparison that is two operands with an operator tighter than `!` between them. -/
theorem reading_comparison_next (hl : reading (negative finish ts) = some (a, t :: rest))
    (ht : t.lexeme = .mark op.mark) (hop : op.joins = false)
    (hr : reading (negative finish rest) = found) (h : ∀ r ∈ found, Loose r.2) :
    reading (comparison finish ts) = found.map fun r => (.binary 0 op a r.1, r.2) := by
  have hboth : ∀ r ∈ found.map (fun r => (Expr.binary 0 op a r.1, r.2)), Loose r.2 := by
    intro r hmem
    obtain ⟨r', hr', rfl⟩ := Option.map_eq_some_iff.1 hmem
    exact h r' hr'
  rcases level_of_mark ht hop with hterm | ⟨hterm, hsum⟩ | ⟨hterm, hsum, hcomparison⟩
  · refine reading_comparison_of_sum (reading_chain_of_stops ?_ fun r hr => (hboth r hr).sum) hboth
    rw [operand_sum]
    rw [← operand_term] at hl hr
    exact reading_chain_next hl hterm hr fun r hr => (h r hr).term
  · refine reading_comparison_of_sum ?_ hboth
    rw [← operand_term] at hl hr
    have hleft := reading_chain_of_stops hl (by rintro r ⟨rfl⟩; exact stops_cons.2 hterm)
    have hright := reading_chain_of_stops hr fun r hr => (h r hr).term
    rw [← operand_sum] at hleft hright
    exact reading_chain_next hleft hsum hright fun r hr => (h r hr).sum
  · have hleft := reading_sum_of_stops hl (by rintro r ⟨rfl⟩; exact stops_cons.2 hterm)
      (by rintro r ⟨rfl⟩; exact stops_cons.2 hsum)
    have hright := reading_sum_of_stops hr (fun r hr => (h r hr).term) fun r hr => (h r hr).sum
    rw [reading_comparison, hleft, Option.bind_some]
    simp only [hcomparison, hright]

/-! ## Operators in front -/

theorem reading_negation_bang (ht : t.lexeme = .mark .bang) :
    reading (negation finish (t :: rest)) =
      (reading (negation finish rest)).map fun r => (.unary 0 .not r.1, r.2) := by
  have hstands : t.stands .bang "not" = true := by simp [Token.stands, ht]
  rw [negation, if_pos hstands]
  cases negation finish rest with
  | error e => rfl
  | ok r => rfl

theorem negation_of_not_stands (ht : t.stands .bang "not" = false) :
    negation finish (t :: rest) = comparison finish (t :: rest) := by
  rw [negation, if_neg (by simp [ht])]

theorem reading_negative_minus (ht : t.lexeme = .mark .minus) :
    reading (negative finish (t :: rest)) =
      (reading (negative finish rest)).map fun r => (.unary 0 .neg r.1, r.2) := by
  have hminus : t.isMark .minus = true := by simp [Token.isMark, ht]
  rw [negative, if_pos hminus]
  cases negative finish rest with
  | error e => rfl
  | ok r => rfl

theorem negative_of_not_minus (ht : t.isMark .minus = false) :
    negative finish (t :: rest) = primary finish (t :: rest) := by
  rw [negative, if_neg (by simp [ht])]

/-- No operand of an operator tighter than `!` starts with `!`. -/
theorem reading_negative_bang (ht : t.lexeme = .mark .bang) :
    reading (negative finish (t :: rest)) = none := by
  rw [negative_of_not_minus (by simp [Token.isMark, ht]), primary]
  simp only [ht, reading]

/-! ## Brackets -/

/-- The list ends, or a closing bracket is the next token. -/
def Ends (ts : List Token) : Prop := ∀ t ∈ ts.head?, t.lexeme = .mark .closing

theorem Ends.stops (h : Ends ts) (level : Chain) : Stops level ts := by
  intro t ht
  cases level <;> simp [Chain.operator?, Token.stands, Token.isMark, h t ht]

theorem Ends.loose (h : Ends ts) : Loose ts :=
  ⟨h.stops .term, h.stops .sum, fun t ht => by simp [comparison?, h t ht]⟩

/-- No operator that binds tighter than `!` has the mark of one that binds looser. -/
theorem loose_of_joins (ht : t.lexeme = .mark op.mark) (hop : op.joins = true) :
    Loose (t :: ts) := by
  refine ⟨stops_cons.2 ?_, stops_cons.2 ?_, ?_⟩
  · cases op <;> simp_all [Chain.operator?, Token.isMark, BinaryOp.mark, BinaryOp.joins]
  · cases op <;> simp_all [Chain.operator?, Token.isMark, BinaryOp.mark, BinaryOp.joins]
  · rintro u ⟨rfl⟩
    cases op <;> simp_all [comparison?, BinaryOp.mark, BinaryOp.joins]

/-- The loosest level reads one operand where the list ends behind it. -/
theorem reading_chain_or_of_ends (hl : reading (negation finish ts) = found)
    (h : ∀ r ∈ found, Ends r.2) : reading (chain finish .or ts) = found := by
  refine reading_chain_of_stops ?_ fun r hr => (h r hr).stops .or
  rw [operand_or]
  refine reading_chain_of_stops ?_ fun r hr => (h r hr).stops .and
  rw [operand_and]
  exact hl

/-- The loosest level reads two operands with an operator looser than `!` between them. -/
theorem reading_chain_or_next (hl : reading (negation finish ts) = some (a, t :: rest))
    (ht : t.lexeme = .mark op.mark) (hop : op.joins = true)
    (hr : reading (negation finish rest) = found) (h : ∀ r ∈ found, Ends r.2) :
    reading (chain finish .or ts) = found.map fun r => (.binary 0 op a r.1, r.2) := by
  rw [← operand_and] at hl hr
  have hor : Chain.or.operator? t = some .or ↔ op = .or := by
    cases op <;> simp_all [Chain.operator?, Token.stands, BinaryOp.mark, BinaryOp.joins]
  have hand : Chain.and.operator? t = if op = .and then some .and else none := by
    cases op <;> simp_all [Chain.operator?, Token.stands, BinaryOp.mark, BinaryOp.joins]
  by_cases hop' : op = .and
  · subst hop'
    refine reading_chain_of_stops ?_ ?_
    · rw [operand_or]
      exact reading_chain_next hl hand hr fun r hr => (h r hr).stops .and
    · intro r hmem
      obtain ⟨r', hr', rfl⟩ := Option.map_eq_some_iff.1 hmem
      exact (h r' hr').stops .or
  · obtain rfl : op = .or := by cases op <;> simp_all [BinaryOp.joins]
    rw [if_neg hop'] at hand
    have hleft := reading_chain_of_stops hl (by rintro r ⟨rfl⟩; exact stops_cons.2 hand)
    have hright := reading_chain_of_stops hr fun r hr => (h r hr).stops .and
    rw [← operand_or] at hleft hright
    exact reading_chain_next hleft (hor.2 rfl) hright fun r hr => (h r hr).stops .or

/-- An operand in brackets. -/
theorem reading_brackets {inside : Option Expr} (ht : t.lexeme = .mark .opening)
    (hc : c.lexeme = .mark .closing)
    (h : reading (chain finish .or ts) = inside.map fun x => (x, c :: back)) :
    reading (negative finish (t :: ts)) = inside.map fun x => (x, back) := by
  rw [negative_of_not_minus (by simp [Token.isMark, ht]), primary]
  simp only [ht]
  cases hm : chain finish .or ts with
  | error e =>
    rw [hm] at h
    cases inside with
    | none => rfl
    | some x => cases h
  | ok r =>
    obtain ⟨⟨x, mid⟩, hlt⟩ := r
    rw [hm] at h
    cases inside with
    | none => cases h
    | some y =>
      obtain ⟨rfl, rfl⟩ := Prod.mk.inj (Option.some.inj h)
      simp [reading, bind, Except.bind, pure, Except.pure, closing, Token.isMark, hc]

end Readers

end Expr
end DecisionEngine
