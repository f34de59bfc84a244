import DecisionEngine.Binary64.Nearest
import DecisionEngine.Expr.Basic
/-!
# Tokens of expressions

A source is cut into numbers, quoted texts, names and marks; blanks between them are dropped. Only
ASCII letters, digits and blanks count as such.

* `tokenize` cuts a whole source and stops at the first byte that starts no token.
-/

namespace DecisionEngine
namespace Expr

/-! ## Marks -/

/-- The marks that operators and brackets are written with. -/
inductive Mark
  | eq
  | ne
  | le
  | ge
  | and
  | or
  | plus
  | minus
  | times
  | slash
  | percent
  | lt
  | gt
  | bang
  | opening
  | closing
  | comma
  deriving DecidableEq

namespace Mark

/-- How a mark is written. -/
def text : Mark → Bytes
  | eq => utf8 "=="
  | ne => utf8 "!="
  | le => utf8 "<="
  | ge => utf8 ">="
  | and => utf8 "&&"
  | or => utf8 "||"
  | plus => utf8 "+"
  | minus => utf8 "-"
  | times => utf8 "*"
  | slash => utf8 "/"
  | percent => utf8 "%"
  | lt => utf8 "<"
  | gt => utf8 ">"
  | bang => utf8 "!"
  | opening => utf8 "("
  | closing => utf8 ")"
  | comma => utf8 ","

/-- All marks, the longer ones first: a source is cut at the longest mark. -/
def all : List Mark :=
  [eq, ne, le, ge, and, or, plus, minus, times, slash, percent, lt, gt, bang, opening, closing,
    comma]

end Mark

/-! ## Tokens -/

/-- What a token says. -/
inductive Lexeme
  | number (source : Bytes) (value : Value)
  | text (content : Bytes)
  | name (name : Bytes)
  | mark (mark : Mark)
  deriving DecidableEq

/-- A token and the byte it starts at. -/
structure Token where
  lexeme : Lexeme
  position : Nat
  deriving DecidableEq

/-- The text by which an error quotes a token. -/
def Lexeme.quotedAs : Lexeme → Bytes
  | number source _ => source
  | text content => content
  | name n => n
  | mark m => m.text

/-- The tokens of a source and its length, where they end. -/
structure Tokens where
  tokens : List Token
  finish : Nat
  deriving DecidableEq

/-! ## Classes of bytes -/

/-- A blank: space, tab, line feed, vertical tab, form feed or carriage return. -/
def isBlank (b : UInt8) : Bool := b == 32 || (decide (9 ≤ b) && decide (b ≤ 13))

/-- A decimal digit. -/
def isDigit (b : UInt8) : Bool := decide (48 ≤ b) && decide (b ≤ 57)

/-- A letter. -/
def isLetter (b : UInt8) : Bool :=
  (decide (65 ≤ b) && decide (b ≤ 90)) || (decide (97 ≤ b) && decide (b ≤ 122))

/-- A byte that a name can start with. -/
def startsName (b : UInt8) : Bool := isLetter b || b == 95

/-- A byte inside a name. -/
def continuesName (b : UInt8) : Bool := isLetter b || isDigit b || b == 95 || b == 46

/-- A digit or a decimal point. -/
def continuesNumber (b : UInt8) : Bool := isDigit b || b == 46

/-- A double or a single quote. -/
def isQuote (b : UInt8) : Bool := b == 34 || b == 39

/-! ## Numbers -/

/-- The number that decimal digits stand for. -/
def digitsValue (digits : Bytes) : Nat := digits.foldl (fun n d => 10 * n + (d.toNat - 48)) 0

/-- The value of a number. One with a point is a real, the nearest to what is written; any other
one is an integer of 63 bits. -/
def numberValue (source : Bytes) : Except Cause Value :=
  let points := source.count 46
  if 1 < points then .error .malformedNumber
  else if points = 1 then
    let places := (source.dropWhile (· != 46)).length - 1
    .ok (.real (Binary64.nearest ⟨digitsValue (source.filter (· != 46)), Nat.pow 10 places⟩))
  else
    let n := digitsValue source
    if n < Nat.pow 2 63 then .ok (.int (Int64.ofNat n)) else .error .integerOutOfRange

/-! ## Quoted texts -/

/-- The content of a quoted text and what follows the closing quote. A backslash stands for the
byte behind it; nothing is left open at the end of the source. -/
def quotedText (quote : UInt8) : Bytes → Option (Bytes × Bytes)
  | [] => none
  | b :: rest =>
    if b = quote then some ([], rest)
    else if b = 92 then
      match rest with
      | [] => none
      | c :: rest => (quotedText quote rest).map fun p => (c :: p.1, p.2)
    else (quotedText quote rest).map fun p => (b :: p.1, p.2)

theorem quotedText_length {quote : UInt8} {bs : Bytes} {p : Bytes × Bytes}
    (h : quotedText quote bs = some p) : p.2.length < bs.length := by
  fun_induction quotedText quote bs generalizing p with
  | case1 => simp at h
  | case2 => cases h; simp
  | case3 => simp at h
  | case4 _ _ _ ih =>
    obtain ⟨q, hq, rfl⟩ := Option.map_eq_some_iff.1 h
    have := ih hq
    simp only [List.length_cons]
    omega
  | case5 _ _ _ _ ih =>
    obtain ⟨q, hq, rfl⟩ := Option.map_eq_some_iff.1 h
    have := ih hq
    simp only [List.length_cons]
    omega

/-! ## Cutting a source -/

/-- The first token of a source that does not start with a blank, and what follows it. -/
def lexeme (b : UInt8) (rest : Bytes) : Except Cause (Lexeme × Bytes) :=
  if isDigit b then do
    let source := b :: rest.takeWhile continuesNumber
    return (.number source (← numberValue source), rest.dropWhile continuesNumber)
  else if isQuote b then
    match quotedText b rest with
    | some (content, back) => .ok (.text content, back)
    | none => .error .unterminatedText
  else if startsName b then
    .ok (.name (b :: rest.takeWhile continuesName), rest.dropWhile continuesName)
  else
    match Mark.all.find? fun m => m.text == (b :: rest).take m.text.length with
    | some m => .ok (.mark m, (b :: rest).drop m.text.length)
    | none => .error (.unexpectedByte b)

theorem lexeme_length {b : UInt8} {rest : Bytes} {p : Lexeme × Bytes}
    (h : lexeme b rest = .ok p) : p.2.length ≤ rest.length := by
  unfold lexeme at h
  split at h
  · cases hv : numberValue (b :: rest.takeWhile continuesNumber) with
    | error e => simp [hv, bind, Except.bind] at h
    | ok v =>
      simp [hv, bind, Except.bind, pure, Except.pure] at h
      subst h
      exact List.dropWhile_suffix continuesNumber |>.length_le
  · split at h
    · split at h
      · rename_i hq
        cases h
        exact Nat.le_of_lt (quotedText_length hq)
      · cases h
    · split at h
      · cases h
        exact List.dropWhile_suffix continuesName |>.length_le
      · split at h
        · rename_i m hm
          cases h
          have : 0 < m.text.length := by cases m <;> decide
          simp only [List.length_drop, List.length_cons]
          omega
        · cases h

/-- The tokens of a source whose first byte is at a position. -/
def tokensFrom (position : Nat) (bs : Bytes) : Except Error Tokens :=
  match bs with
  | [] => .ok ⟨[], position⟩
  | b :: rest =>
    if isBlank b then tokensFrom (position + 1) rest
    else
      match h : lexeme b rest with
      | .error cause => .error ⟨cause, position⟩
      | .ok (l, back) => do
        have taken : back.length ≤ rest.length := lexeme_length h
        let ts ← tokensFrom (position + (rest.length + 1 - back.length)) back
        return ⟨⟨l, position⟩ :: ts.tokens, ts.finish⟩
termination_by bs.length
decreasing_by
  · simp
  · simp only [List.length_cons]
    omega

/-- The tokens of a source. -/
def tokenize (source : Bytes) : Except Error Tokens := tokensFrom 0 source

end Expr
end DecisionEngine
