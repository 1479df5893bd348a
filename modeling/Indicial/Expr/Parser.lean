import Indicial.Error
import Indicial.Expr.Build

/-!
# Reading expressions

Expressions are written in infix form:

    expr    := term (('+' | '-') term)*
    term    := unary (('*' | '/') unary)*
    unary   := '-' unary | power
    power   := primary ('^' unary)?
    primary := number | '(' expr ')' | name | name '(' arguments ')'

A name is a function, one of `D`, `bind`, `symmetrize`, `delta` and `epsilon`, or a tensor. Digits and
points denote exact numbers; a number with an exponent is floating. Blanks may stand between tokens.

A reader takes the text that is left and returns an expression with the text after it, which is
shorter, so the readers call each other along ever shorter texts. An error carries the position at
which it was met, counted in bytes.
-/

namespace Indicial.Expr.Parser

/-- A byte between tokens. -/
def isBlank (b : UInt8) : Bool := b == 32 || b == 9 || b == 13 || b == 10

/-- The text from its next token on. -/
def skip (s : Bytes) : Bytes := s.dropWhile isBlank

theorem length_skip_le (s : Bytes) : (skip s).length ≤ s.length :=
  (List.dropWhile_suffix isBlank).length_le

/-- The text after a byte, if that is the next token. -/
def accept (c : UInt8) (s : Bytes) : Option Bytes :=
  match skip s with
  | b :: rest => if b == c then some rest else none
  | [] => none

theorem length_lt_of_accept {c : UInt8} {s r : Bytes} (h : accept c s = some r) :
    r.length < s.length := by
  have hs := length_skip_le s
  unfold accept at h
  split at h
  · rename_i b rest heq
    split at h
    · simp only [Option.some.injEq] at h
      subst h
      rw [heq] at hs
      simp only [List.length_cons] at hs
      omega
    · cases h
  · cases h

/-- The longest name at the start of the text. -/
def word (s : Bytes) : Bytes := s.takeWhile fun b => Bytes.isLetter b || Bytes.isDigit b

/-- The tensors that names stand for. The first entry of a name counts. -/
abbrev Scope := List (Bytes × Tensor)

/-- What reading depends on: the tensors, and the length of the whole text, from which positions are
counted. -/
structure Env where
  scope : Scope
  total : Nat

/-- The error at the start of the text that is left. -/
def Env.fail {α : Type} (env : Env) (s : Bytes) (why : Malformed) : Except Error α :=
  .error (.malformed (env.total - s.length) why)

/-- The rest of a text after something was taken from it. -/
abbrev Rest (s : Bytes) := { r : Bytes // r.length < s.length }

/-- The text after a byte that has to come next. -/
def expect (env : Env) (c : UInt8) (s : Bytes) : Except Error (Rest s) :=
  match h : accept c s with
  | some r => .ok ⟨r, length_lt_of_accept h⟩
  | none => env.fail (skip s) (.expected c)

/-- The exact value of digits with at most one point, which need at least one digit. -/
def decimal? (text : Bytes) : Option Rat :=
  let m := Number.readMantissa 10 0 0 false false text
  if m.any && m.rest.isEmpty then some ((m.value : Rat) / (Nat.pow 10 m.places : Nat)) else none

/-- The length of the exponent at the start of a text: its mark, a sign and digits. -/
def exponentLength (s : Bytes) : Nat :=
  match s with
  | b :: rest =>
    if b == 101 || b == 69 then
      let sign := match rest with
        | c :: _ => if c == 43 || c == 45 then 1 else 0
        | [] => 0
      1 + sign + ((rest.drop sign).takeWhile Bytes.isDigit).length
    else 0
  | [] => 0

/-- The number at the start of a text, which is a digit or a point. -/
def number (env : Env) (s : Bytes) : Except Error (Expr × Bytes) :=
  let mantissa := s.takeWhile fun b => Bytes.isDigit b || b == 46
  let rest := s.drop mantissa.length
  let tail := exponentLength rest
  if tail = 0 then
    match decimal? mantissa with
    | some q => .ok (Expr.number (.exact q), rest)
    | none => env.fail s (.invalidNumber mantissa)
  else
    let text := mantissa ++ rest.take tail
    match Number.readFloat text with
    | .ok x => .ok (Expr.number (.float x), rest.drop tail)
    | .error _ => env.fail s (.invalidNumber text)

/-- The words of a label list up to its closing parenthesis. Words are joined, so `ij` and `i, j` are
the same labels. The fuel is the length of the text: every round takes a word. -/
def labelWords (env : Env) : (fuel : Nat) → (sofar : Index) → (s : Bytes) → Except Error (Index × Bytes)
  | 0, _, s => env.fail (skip s) .expectedLabel
  | fuel + 1, sofar, s =>
    let s := skip s
    let w := word s
    let rest := s.drop w.length
    if w.isEmpty then env.fail s .expectedLabel
    else match w.find? fun b => !Bytes.isLetter b with
      | some b => env.fail rest (.invalidLabel b)
      | none =>
        let all := sofar ++ w
        if Index.capacity < all.length then env.fail rest .tooManyLabels
        else match accept 41 rest with
          | some after => .ok (all, after)
          | none => do
            let ⟨after, _⟩ ← expect env 44 rest
            labelWords env fuel all after

/-- A label list with its closing parenthesis. -/
def labels (env : Env) (s : Bytes) : Except Error (Index × Bytes) :=
  match accept 41 s with
  | some rest => .ok ([], rest)
  | none => labelWords env (s.length + 1) [] s

/-- Keeps what is known to be shorter; the text that is left never grows, so this refuses nothing. -/
def shorten (s r : Bytes) (e : Expr) : Except Error (Expr × Rest s) :=
  if h : r.length < s.length then .ok (e, ⟨r, h⟩) else .error (.malformed 0 .unexpectedEnd)

mutual

/-- Terms joined by plus and minus. -/
def expr (env : Env) (s : Bytes) : Except Error (Expr × Rest s) := do
  let (e, r) ← term env s
  let (e, r') ← exprTail env e r.1
  return (e, ⟨r'.1, Nat.lt_of_le_of_lt r'.2 r.2⟩)
termination_by (s.length, 6)

/-- What follows a first term. -/
def exprTail (env : Env) (e : Expr) (s : Bytes) :
    Except Error (Expr × { r : Bytes // r.length ≤ s.length }) :=
  match h : accept 43 s with
  | some t => do
    have ht : t.length < s.length := length_lt_of_accept h
    let (f, r) ← term env t
    have hr : r.1.length < t.length := r.2
    let (e, r') ← exprTail env (← mkSum e f) r.1
    return (e, ⟨r'.1, by have := r'.2; omega⟩)
  | none =>
    match h : accept 45 s with
    | some t => do
      have ht : t.length < s.length := length_lt_of_accept h
      let (f, r) ← term env t
      have hr : r.1.length < t.length := r.2
      let (e, r') ← exprTail env (← mkDifference e f) r.1
      return (e, ⟨r'.1, by have := r'.2; omega⟩)
    | none => .ok (e, ⟨s, Nat.le_refl _⟩)
termination_by (s.length, 7)

/-- Factors joined by times and over. -/
def term (env : Env) (s : Bytes) : Except Error (Expr × Rest s) := do
  let (e, r) ← unary env s
  let (e, r') ← termTail env e r.1
  return (e, ⟨r'.1, Nat.lt_of_le_of_lt r'.2 r.2⟩)
termination_by (s.length, 4)

/-- What follows a first factor. -/
def termTail (env : Env) (e : Expr) (s : Bytes) :
    Except Error (Expr × { r : Bytes // r.length ≤ s.length }) :=
  match h : accept 42 s with
  | some t => do
    have ht : t.length < s.length := length_lt_of_accept h
    let (f, r) ← unary env t
    have hr : r.1.length < t.length := r.2
    let (e, r') ← termTail env (← mkProduct e f) r.1
    return (e, ⟨r'.1, by have := r'.2; omega⟩)
  | none =>
    match h : accept 47 s with
    | some t => do
      have ht : t.length < s.length := length_lt_of_accept h
      let (f, r) ← unary env t
      have hr : r.1.length < t.length := r.2
      let (e, r') ← termTail env (← mkRatio e f) r.1
      return (e, ⟨r'.1, by have := r'.2; omega⟩)
    | none => .ok (e, ⟨s, Nat.le_refl _⟩)
termination_by (s.length, 5)

/-- A power, or a minus before one. A minus before a literal becomes part of the literal. -/
def unary (env : Env) (s : Bytes) : Except Error (Expr × Rest s) :=
  match h : accept 45 s with
  | some t => do
    have ht : t.length < s.length := length_lt_of_accept h
    let (e, r) ← unary env t
    let negative ← match e with
      | literal value labels => mkBroadcast value.neg labels
      | e => mkNegate e
    return (negative, ⟨r.1, Nat.lt_trans r.2 ht⟩)
  | none => power env s
termination_by (s.length, 3)

/-- A primary, with an exponent if one follows. -/
def power (env : Env) (s : Bytes) : Except Error (Expr × Rest s) := do
  let (base, r) ← primary env s
  match h : accept 94 r.1 with
  | some t => do
    have ht : t.length < r.1.length := length_lt_of_accept h
    have hr : r.1.length < s.length := r.2
    let (exponent, r') ← unary env t
    return (← mkPower base exponent, ⟨r'.1, by have := r'.2; omega⟩)
  | none => return (base, r)
termination_by (s.length, 2)

/-- A number, a name with its arguments, or an expression in parentheses. -/
def primary (env : Env) (s : Bytes) : Except Error (Expr × Rest s) :=
  match h : skip s with
  | [] => env.fail [] .unexpectedEnd
  | c :: rest =>
    have hs : rest.length < s.length := by
      have := length_skip_le s
      rw [h] at this
      simp only [List.length_cons] at this
      omega
    if c == 40 then do
      let (e, r) ← expr env rest
      let r' ← expect env 41 r.1
      return (e, ⟨r'.1, by have := r'.2; have := r.2; omega⟩)
    else if Bytes.isDigit c || c == 46 then do
      let (e, r) ← number env (c :: rest)
      shorten s r e
    else if Bytes.isLetter c then
      let name := word (c :: rest)
      let after := rest.drop (name.length - 1)
      have ha : after.length < s.length := by
        have : after.length ≤ rest.length := by simp [after]
        omega
      do
        let (e, r) ← call env name after
        return (e, ⟨r.1, by have := r.2; omega⟩)
    else if c == 0 then env.fail (c :: rest) .unexpectedEnd
    else env.fail (c :: rest) (.unexpected c)
termination_by (s.length, 1)

/-- What a name stands for, `s` being the text after the name. -/
def call (env : Env) (name : Bytes) (s : Bytes) :
    Except Error (Expr × { r : Bytes // r.length ≤ s.length }) :=
  match Func.ofName? name with
  | some f => do
    let (e, r) ← single env name s
    return (← mkApply f e, ⟨r.1, Nat.le_of_lt r.2⟩)
  | none =>
    if name = Bytes.ofString "D" then do
      let (e, along, r) ← withLabels env name s
      if along.isEmpty then env.fail r.1 .noDirection
      else return (← mkDerivative e along, ⟨r.1, Nat.le_of_lt r.2⟩)
    else if name = Bytes.ofString "bind" then do
      let (e, target, r) ← withLabels env name s
      return (← mkBind e target, ⟨r.1, Nat.le_of_lt r.2⟩)
    else if name = Bytes.ofString "symmetrize" then do
      let (e, r) ← single env name s
      return (← symmetrize e, ⟨r.1, Nat.le_of_lt r.2⟩)
    else if name = Bytes.ofString "delta" || name = Bytes.ofString "epsilon" then do
      let r ← expect env 40 s
      let (ls, r') ← labels env r.1
      let e ← if name = Bytes.ofString "delta" then mkDelta ls else mkEpsilon ls
      let (e, r'') ← shorten s r' e
      return (e, ⟨r''.1, Nat.le_of_lt r''.2⟩)
    else match env.scope.lookup name with
      | none => env.fail s (.unknownTensor name)
      | some symbol =>
        match accept 40 s with
        | none =>
          if symbol.order = 0 then do return (← mkReference symbol, ⟨s, Nat.le_refl _⟩)
          else env.fail (skip s) (.bareTensor name symbol.order)
        | some rest => do
          let (ls, r) ← labels env rest
          if ls.length < symbol.order then env.fail r (.boundTensor name symbol.order ls)
          else
            let (e, r') ← shorten s r (← mkLeaf symbol ls)
            return (e, ⟨r'.1, Nat.le_of_lt r'.2⟩)
termination_by (s.length, 9)

/-- One expression in parentheses. -/
def single (env : Env) (name : Bytes) (s : Bytes) : Except Error (Expr × Rest s) := do
  let r ← Except.within (.call name) (expect env 40 s)
  have hr : r.1.length < s.length := r.2
  let (e, r') ← expr env r.1
  have hr' : r'.1.length < r.1.length := r'.2
  let r'' ← expect env 41 r'.1
  return (e, ⟨r''.1, by have := r''.2; omega⟩)
termination_by (s.length, 8)

/-- An expression and labels in parentheses. -/
def withLabels (env : Env) (name : Bytes) (s : Bytes) : Except Error (Expr × Index × Rest s) := do
  let r ← Except.within (.call name) (expect env 40 s)
  have hr : r.1.length < s.length := r.2
  let (e, r') ← expr env r.1
  have hr' : r'.1.length < r.1.length := r'.2
  match accept 44 r'.1 with
  | none => do
    let r'' ← expect env 41 r'.1
    return (e, [], ⟨r''.1, by have := r''.2; omega⟩)
  | some t => do
    let (ls, r'') ← labels env t
    let (e, rest) ← shorten s r'' e
    return (e, ls, rest)
termination_by (s.length, 8)

end

/-- Reads a whole text as one expression over the given tensors. -/
def parse (scope : Scope) (src : Bytes) : Except Error Expr := do
  let env : Env := ⟨scope, src.length⟩
  let (e, r) ← expr env src
  match skip r.1 with
  | [] => return e
  | b :: rest => env.fail (b :: rest) (.unexpected b)

end Indicial.Expr.Parser
