import DecisionEngine.Blueprint.Basic
/-!
# Arbitration

Of the branches of a selector whose guards passed, one is selected. First the dominated candidates
drop out, then the policy ranks the rest; among equals the first in the list wins. Every candidate
that is not selected gets a reason.

* `Ranking.beats`: when a branch ranks strictly above another one.
* `Selector.arbitrate`: the winner, the losers with their reasons, and the rationale.
-/

namespace DecisionEngine

/-! ## Comparators -/

/-- A custom order of branches: whether the first one wins against the second. -/
abbrev Comparator := Branch → Branch → Bool

namespace Comparator

/-- The lower priority wins. -/
def lowestPriority : Comparator := fun a b => decide (a.priority < b.priority)

/-- The lower weight wins. -/
def lowestWeight : Comparator := fun a b => a.weight.less b.weight

/-- The branch that was declared later wins. -/
def lastDeclared : Comparator := fun a b => decide (b.order < a.order)

/-- The number of bytes of the action of a branch. -/
def actionLength (b : Branch) : Nat := (b.outcome.map fun o => o.action.length).getD 0

/-- The longer action wins. -/
def longestAction : Comparator := fun a b => decide (actionLength b < actionLength a)

end Comparator

/-- Why a comparator is not registered. -/
inductive ComparatorError
  | incomplete
  deriving DecidableEq

/-- The wording of the reason. -/
def ComparatorError.message : ComparatorError → Bytes
  | incomplete => utf8 "Comparator needs a name and a callable"

/-- Comparators by name. -/
structure Comparators where
  entries : List (Bytes × Comparator)

namespace Comparators

/-- No comparators. -/
def empty : Comparators := ⟨[]⟩

instance : Inhabited Comparators := ⟨empty⟩

/-- The comparator of a name. -/
def find? (cs : Comparators) (name : Bytes) : Option Comparator := cs.entries.lookup name

/-- Gives a name a comparator; both have to be there. One that the name had is replaced. -/
def add (cs : Comparators) (name : Bytes) (comparator : Option Comparator) :
    Except ComparatorError Comparators :=
  match comparator with
  | none => .error .incomplete
  | some c => if name = [] then .error .incomplete else .ok ⟨(name, c) :: cs.entries⟩

end Comparators

/-! ## Ranking -/

namespace Mask

/-- The number of bits that are set. -/
def count (m : Mask) : Nat := ((List.range 64).filter m.has).length

end Mask

namespace Branch

/-- How many categorical conditions a branch has, be they in its mask or in its program. -/
def specificity (b : Branch) : Nat := max b.guard.mask.count b.guard.labels.length

/-- Whether a branch has the greater weight. -/
def outweighs (a b : Branch) : Bool := b.weight.less a.weight

end Branch

/-- What candidates are compared by. -/
inductive Ranking
  | priority
  | weight
  | declaration
  | specificity
  | comparator (wins : Comparator)

/-- Whether a branch ranks strictly above another one. The order of declaration ranks none above
another: there the first in the list wins. -/
def Ranking.beats : Ranking → Branch → Branch → Bool
  | priority, a, b => decide (b.priority < a.priority)
  | weight, a, b => a.outweighs b
  | declaration, _, _ => false
  | specificity, a, b =>
    if a.specificity = b.specificity then a.outweighs b else decide (b.specificity < a.specificity)
  | comparator wins, a, b => wins a b

/-! ## Reasons -/

/-- Why a candidate lost; `winner` is the id of the node it lost against. -/
inductive LossReason
  | dominated (winner : Bytes)
  | declaredLater (winner : Bytes)
  | tied (winner : Bytes)
  | lowerPriority (own theirs : Int32) (winner : Bytes)
  | lowerWeight (own theirs : Binary64) (winner : Bytes)
  | fewerMatches (own theirs : Nat) (winner : Bytes)
  | lowerWeightOfEqualMatches (own theirs : Binary64) (winner : Bytes)
  | rankedBelow (winner : Bytes)
  deriving DecidableEq

/-- A weight as it is shown in reasons: six significant digits. -/
def Binary64.shown (x : Binary64) : Bytes := x.general 6

/-- The wording of a reason. -/
def LossReason.text : LossReason → Bytes
  | dominated w => utf8 "dominated by " ++ w
  | declaredLater w => w ++ utf8 " was declared first"
  | tied w => utf8 "tied with " ++ w ++ utf8 "; earlier declaration wins"
  | lowerPriority own theirs w =>
    utf8 "priority " ++ Bytes.signedDecimal own.toInt ++ utf8 " < " ++
      Bytes.signedDecimal theirs.toInt ++ utf8 " of " ++ w
  | lowerWeight own theirs w =>
    utf8 "weight " ++ own.shown ++ utf8 " < " ++ theirs.shown ++ utf8 " of " ++ w
  | fewerMatches own theirs w =>
    utf8 "matched " ++ Bytes.decimal own ++ utf8 " attribute(s), " ++ w ++ utf8 " matched " ++
      Bytes.decimal theirs
  | lowerWeightOfEqualMatches own theirs w =>
    utf8 "same specificity as " ++ w ++ utf8 ", weight " ++ own.shown ++ utf8 " < " ++ theirs.shown
  | rankedBelow w => utf8 "ranked below " ++ w ++ utf8 " by the custom comparator"

/-- A candidate of an arbitration: a branch, its place in the selector and the id of its node. -/
structure Candidate where
  index : Nat
  branch : Branch
  id : Bytes
  deriving DecidableEq

/-- Why a candidate that nobody dominates lost against the winner. -/
def Ranking.reason (r : Ranking) (loser winner : Candidate) : LossReason :=
  let l := loser.branch
  let w := winner.branch
  match r with
  | declaration => .declaredLater winner.id
  | priority =>
    if r.beats w l then .lowerPriority l.priority w.priority winner.id else .tied winner.id
  | weight => if r.beats w l then .lowerWeight l.weight w.weight winner.id else .tied winner.id
  | specificity =>
    if r.beats w l then
      if l.specificity = w.specificity then
        .lowerWeightOfEqualMatches l.weight w.weight winner.id
      else .fewerMatches l.specificity w.specificity winner.id
    else .tied winner.id
  | comparator _ => if r.beats w l then .rankedBelow winner.id else .tied winner.id

/-! ## The selection -/

/-- Why candidates cannot be arbitrated. -/
inductive ArbitrationError
  | outOfRange
  | dominanceCycle (group : Bytes)
  deriving DecidableEq

/-- The wording of the reason, if it has one. -/
def ArbitrationError.message? : ArbitrationError → Option Bytes
  | outOfRange => none
  | dominanceCycle group =>
    some (utf8 "dominance cycle among the candidates of " ++ group)

/-- A candidate that lost, by its place in the selector. -/
structure Loss where
  branch : Nat
  reason : LossReason
  deriving DecidableEq

/-- The outcome of an arbitration; there is a winner unless there were no candidates. -/
structure Selection where
  winner : Option Nat
  losers : List Loss
  rationale : Bytes
  deriving DecidableEq

namespace Selector

/-- The ranking that a selector asks for, with its name. A comparator that nobody registered is
replaced by the order of declaration. -/
def ranking (s : Selector) (comparators : Comparators) : Ranking × Bytes :=
  match s.policy with
  | .highestPriority => (.priority, s.policy.name)
  | .highestWeight => (.weight, s.policy.name)
  | .firstSatisfied => (.declaration, s.policy.name)
  | .bestMatch => (.specificity, s.policy.name)
  | .custom =>
    match comparators.find? s.comparator with
    | some c => (.comparator c, utf8 "custom:" ++ s.comparator)
    | none =>
      (.declaration, utf8 "declaration order (comparator " ++ Bytes.quoted s.comparator ++
        utf8 " not registered)")

/-- The candidate of a place in the selector. -/
def candidate? (s : Selector) (nodes : List PlanNode) (index : Nat) : Option Candidate := do
  let b ← s.branches[index]?
  let n ← nodes[b.node]?
  return ⟨index, b, n.id⟩

/-- Whether one candidate dominates another one. -/
def dominatesIn (s : Selector) (winner loser : Candidate) : Bool :=
  winner.index != loser.index && s.dominates.contains (winner.branch.node, loser.branch.node)

/-- The first of the candidates that dominates a candidate. -/
def dominator? (s : Selector) (among : List Candidate) (c : Candidate) : Option Candidate :=
  among.find? fun other => s.dominatesIn other c

end Selector

/-- The first of the candidates that no later one ranks above. -/
def Ranking.best (r : Ranking) (first : Candidate) (rest : List Candidate) : Candidate :=
  rest.foldl (fun best c => if r.beats c.branch best.branch then c else best) first

namespace Selector

/-- The candidates that are dominated, with the reason. -/
def dominatedLosses (s : Selector) (among : List Candidate) : List Loss :=
  among.filterMap fun c => (s.dominator? among c).map fun d => ⟨c.index, .dominated d.id⟩

/-- The candidates that nobody dominates. -/
def undominated (s : Selector) (among : List Candidate) : List Candidate :=
  among.filter fun c => (s.dominator? among c).isNone

/-- The candidates other than the winner, each with the reason why it lost. -/
def rankedLosses (r : Ranking) (winner : Candidate) (remaining : List Candidate) : List Loss :=
  (remaining.filter (·.index != winner.index)).map fun c => ⟨c.index, r.reason c winner⟩

/-- Settles which of several candidates is selected. -/
def settle (s : Selector) (comparators : Comparators) (among : List Candidate) :
    Except ArbitrationError Selection :=
  match s.undominated among with
  | [] => .error (.dominanceCycle s.group)
  | first :: rest =>
    let (r, name) := s.ranking comparators
    let winner := r.best first rest
    let losses := s.dominatedLosses among ++ rankedLosses r winner (first :: rest)
    .ok ⟨some winner.index, losses.mergeSort fun a b => decide (a.branch ≤ b.branch),
      winner.id ++ utf8 " selected by " ++ name ++ utf8 " among " ++
        Bytes.decimal among.length ++ utf8 " candidate(s)"⟩

/-- Selects one of the branches that are given by their places in the selector. -/
def arbitrate (s : Selector) (comparators : Comparators) (nodes : List PlanNode)
    (candidates : List Nat) : Except ArbitrationError Selection :=
  if candidates.isEmpty then .ok ⟨none, [], utf8 "no eligible branch"⟩
  else
    match candidates.mapM (s.candidate? nodes) with
    | none => .error .outOfRange
    | some among => s.settle comparators among

end Selector
end DecisionEngine
