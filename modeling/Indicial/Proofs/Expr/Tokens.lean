import Indicial.Expr.Parser
import Indicial.Proofs.Outcome
import Mathlib.Data.List.TakeWhile
import Mathlib.Data.Nat.Digits.Defs
import Mathlib.Tactic.Ring

/-!
# Tokens of expressions

The text of an expression is a sequence of tokens with blanks between them. A token is a mark of one
byte, a name or a number. Names and numbers are cut off by longest match: a name is the longest
beginning that has the form of a name, a number the longest that has the form of a number
(`Longest`). A text spells at most one sequence of tokens (`Spelled.unique`).

The second half ties the tokens to the reader's own scanning: `accept` takes exactly a mark, `word`
exactly a name and `number` exactly a number with the value that its text denotes.
-/

namespace Indicial.Expr.Parser

/-- A byte that is a token by itself. -/
inductive Mark where
  | opening | closing | comma | plus | minus | times | slash | hat
deriving DecidableEq

/-- The character of a mark. -/
def Mark.byte : Mark → UInt8
  | opening => 40 | closing => 41 | comma => 44 | plus => 43
  | minus => 45 | times => 42 | slash => 47 | hat => 94

/-- The tokens of the language: numbers, names and marks. -/
inductive Token where
  | number (value : Literal)
  | name (text : Bytes)
  | mark (m : Mark)

/-! ### What tokens look like -/

/-- `w` is the longest beginning of `s` with a property, and `r` is what follows it. -/
structure Longest (p : Bytes → Prop) (s w r : Bytes) : Prop where
  split : s = w ++ r
  holds : p w
  longest : ∀ w' r', s = w' ++ r' → p w' → w'.length ≤ w.length

/-- A letter with letters and digits after it. -/
def IsName (w : Bytes) : Prop :=
  ∃ c u, w = c :: u ∧ Bytes.isLetter c ∧ ∀ b ∈ u, Bytes.isLetter b || Bytes.isDigit b

/-- Digits and points. -/
def IsMantissa (m : Bytes) : Prop := ∀ b ∈ m, Bytes.isDigit b || b == 46

/-- Nothing, or the mark of an exponent with a sign, if there is one, and digits. -/
inductive IsExponent : Bytes → Prop
  | absent : IsExponent []
  | present {mark : UInt8} {sign digits : Bytes} (hmark : mark = 101 ∨ mark = 69)
      (hsign : sign = [] ∨ sign = [43] ∨ sign = [45]) (hdigits : ∀ b ∈ digits, Bytes.isDigit b) :
      IsExponent (mark :: (sign ++ digits))

/-- What has the form of a number, whether or not it denotes one. -/
def IsNumeral (w : Bytes) : Prop :=
  ∃ m e, w = m ++ e ∧ m ≠ [] ∧ IsMantissa m ∧ IsExponent e

/-- The number that decimal digits stand for. -/
def digitsValue (ds : Bytes) : Nat := Nat.ofDigits 10 (ds.reverse.map fun d => d.toNat - 48)

/-- The value of a number. Digits, and digits with one point among them or beside them, are exact; a
number with an exponent is floating. -/
inductive Denotes : Bytes → Literal → Prop
  | integer {ds : Bytes} (hne : ds ≠ []) (hds : ∀ d ∈ ds, Bytes.isDigit d) :
      Denotes ds (.exact (digitsValue ds))
  | decimal {ws fs : Bytes} (hne : ws ++ fs ≠ []) (hws : ∀ d ∈ ws, Bytes.isDigit d)
      (hfs : ∀ d ∈ fs, Bytes.isDigit d) :
      Denotes (ws ++ 46 :: fs) (.exact (digitsValue (ws ++ fs) / 10 ^ fs.length))
  | float {w : Bytes} {x : Binary64} (hmark : 101 ∈ w ∨ 69 ∈ w) (h : Number.readFloat w = .ok x) :
      Denotes w (.float x)

/-- A token at the start of a text, and the text after it. -/
inductive Lexeme : Bytes → Token → Bytes → Prop
  | mark {m : Mark} {r : Bytes} : Lexeme (m.byte :: r) (.mark m) r
  | name {s w r : Bytes} (h : Longest IsName s w r) : Lexeme s (.name w) r
  | number {s w r : Bytes} {x : Literal} (h : Longest IsNumeral s w r) (hx : Denotes w x) :
      Lexeme s (.number x) r

/-- The text consists of the tokens, with blanks between them. -/
inductive Spelled : Bytes → List Token → Prop
  | done : Spelled [] []
  | blank {b : UInt8} {s : Bytes} {ts : List Token} (hb : isBlank b) (h : Spelled s ts) :
      Spelled (b :: s) ts
  | token {s r : Bytes} {t : Token} {ts : List Token} (ht : Lexeme s t r) (h : Spelled r ts) :
      Spelled s (t :: ts)

/-! ### Longest match -/

/-- There is one longest beginning. -/
lemma Longest.unique {p : Bytes → Prop} {s w r w' r' : Bytes} (h : Longest p s w r)
    (h' : Longest p s w' r') : w = w' ∧ r = r' := by
  have hle := h.longest w' r' h'.split h'.holds
  have hge := h'.longest w r h.split h.holds
  exact List.append_inj (h.split.symm.trans h'.split) (by omega)

/-- What has a property at every byte is no longer than the run of such bytes. -/
lemma length_le_takeWhile {p : UInt8 → Bool} {s w r : Bytes} (hs : s = w ++ r)
    (hw : ∀ b ∈ w, p b) : w.length ≤ (s.takeWhile p).length := by
  rw [hs, List.takeWhile_append_of_pos hw, List.length_append]
  omega

/-- Dropping as many bytes as have a property drops the beginning that has it. -/
lemma drop_length_takeWhile (p : UInt8 → Bool) (s : Bytes) :
    s.drop (s.takeWhile p).length = s.dropWhile p := by
  induction s with
  | nil => rfl
  | cons b s ih => cases h : p b <;> simp [h, ih]

/-- Taking as many bytes as have a property takes the beginning that has it. -/
lemma take_length_takeWhile (p : UInt8 → Bool) (s : Bytes) :
    s.take (s.takeWhile p).length = s.takeWhile p :=
  (List.prefix_iff_eq_take.1 (List.takeWhile_prefix p)).symm

/-- A text that starts with a letter has its longest name there. -/
lemma longest_word {c : UInt8} {t : Bytes} (hc : Bytes.isLetter c) :
    Longest IsName (c :: t) (word (c :: t)) ((c :: t).drop (word (c :: t)).length) := by
  have hword : word (c :: t) = c :: word t := by
    simp [word, hc]
  refine ⟨?_, ⟨c, word t, hword, hc, ?_⟩, ?_⟩
  · rw [word, drop_length_takeWhile, List.takeWhile_append_dropWhile]
  · intro b hb
    exact List.mem_takeWhile_imp (p := fun b => Bytes.isLetter b || Bytes.isDigit b) hb
  · rintro w' r' hs ⟨c', u, rfl, hc', hu⟩
    exact length_le_takeWhile hs (by simpa [hc'] using hu)

/-- A name is the word at a letter. -/
lemma lexeme_name_iff {s w r : Bytes} :
    Lexeme s (.name w) r ↔
      (∃ c t, s = c :: t ∧ Bytes.isLetter c) ∧ w = word s ∧ r = s.drop (word s).length := by
  constructor
  · intro h
    cases h with
    | name h =>
      obtain ⟨c, u, hw, hc, -⟩ := h.holds
      have hs : s = c :: (u ++ r) := by
        rw [h.split, hw, List.cons_append]
      subst hs
      exact ⟨⟨c, _, rfl, hc⟩, h.unique (longest_word hc)⟩
  · rintro ⟨⟨c, t, rfl, hc⟩, rfl, rfl⟩
    exact .name (longest_word hc)

/-! ### Numbers -/

section Exponent

variable {b c : UInt8} {t : Bytes}

/-- A signed exponent is as long as its digits and two characters more. -/
lemma exponentLength_signed (hb : b = 101 ∨ b = 69) (hc : c = 43 ∨ c = 45) :
    exponentLength (b :: c :: t) = (t.takeWhile Bytes.isDigit).length + 2 := by
  have hb' : (b == 101 || b == 69) = true := by simpa using hb
  have hc' : (c == 43 || c == 45) = true := by simpa using hc
  simp only [exponentLength, hb', hc', if_true, List.drop_succ_cons, List.drop_zero]
  omega

/-- An unsigned exponent is as long as its digits and one character more. -/
lemma exponentLength_unsigned (hb : b = 101 ∨ b = 69) (ht : ∀ c ∈ t.head?, ¬(c = 43 ∨ c = 45)) :
    exponentLength (b :: t) = (t.takeWhile Bytes.isDigit).length + 1 := by
  have hb' : (b == 101 || b == 69) = true := by simpa using hb
  cases t with
  | nil => simp [exponentLength, hb']
  | cons c t =>
    have hc' : (c == 43 || c == 45) = false := by simpa using ht c rfl
    simp only [exponentLength, hb', hc', if_true, Bool.false_eq_true, if_false, List.drop_zero]
    omega

/-- Without an `e` there is no exponent. -/
lemma exponentLength_absent {s : Bytes} (hs : ∀ b ∈ s.head?, ¬(b = 101 ∨ b = 69)) :
    exponentLength s = 0 := by
  cases s with
  | nil => rfl
  | cons b t =>
    have hb' : (b == 101 || b == 69) = false := by simpa using hs b rfl
    simp [exponentLength, hb']

/-- The exponent that is scanned is the longest one. -/
lemma longest_exponent (s : Bytes) :
    Longest IsExponent s (s.take (exponentLength s)) (s.drop (exponentLength s)) := by
  -- The cases of the scan: no mark, a mark without a sign, a mark with a sign.
  by_cases hs : ∀ b ∈ s.head?, ¬(b = 101 ∨ b = 69)
  · refine ⟨(List.take_append_drop _ s).symm, ?_, ?_⟩ <;> rw [exponentLength_absent hs]
    · exact .absent
    · rintro _ r' rfl (_ | @⟨mark, sign, digits, hmark, -, -⟩)
      · exact Nat.le_refl 0
      · exact absurd hmark (hs _ rfl)
  push Not at hs
  obtain ⟨b, hhead, hb⟩ := hs
  obtain ⟨t, rfl⟩ := List.head?_eq_some_iff.1 hhead
  by_cases ht : ∀ c ∈ t.head?, ¬(c = 43 ∨ c = 45)
  · refine ⟨(List.take_append_drop _ _).symm, ?_, ?_⟩ <;>
      rw [exponentLength_unsigned hb ht, List.take_succ_cons, take_length_takeWhile]
    · show IsExponent (b :: ([] ++ _))
      exact .present hb (.inl rfl) fun d hd => List.mem_takeWhile_imp hd
    · rintro _ r' heq (_ | @⟨mark, sign, digits, -, hsign, hdigits⟩)
      · exact Nat.zero_le _
      · obtain ⟨rfl, rfl⟩ := List.cons.inj heq
        obtain rfl : sign = [] := by
          rcases hsign with rfl | rfl | rfl
          · rfl
          · exact absurd (.inl rfl) (ht 43 rfl)
          · exact absurd (.inr rfl) (ht 45 rfl)
        simpa using length_le_takeWhile rfl hdigits
  push Not at ht
  obtain ⟨c, hhead, hc⟩ := ht
  obtain ⟨t, rfl⟩ := List.head?_eq_some_iff.1 hhead
  refine ⟨(List.take_append_drop _ _).symm, ?_, ?_⟩ <;>
    rw [exponentLength_signed hb hc, List.take_succ_cons, List.take_succ_cons, take_length_takeWhile]
  · show IsExponent (b :: ([c] ++ _))
    exact .present hb (by simpa using hc) fun d hd => List.mem_takeWhile_imp hd
  · rintro _ r' heq (_ | @⟨mark, sign, digits, -, hsign, hdigits⟩)
    · exact Nat.zero_le _
    · obtain ⟨rfl, htail⟩ := List.cons.inj heq
      rcases hsign with rfl | hsign
      · -- Without the sign there is no digit that the exponent could go on with.
        cases digits with
        | nil => simp
        | cons d digits =>
          obtain ⟨rfl, -⟩ := List.cons.inj htail
          rcases hc with rfl | rfl <;> exact absurd (hdigits _ List.mem_cons_self) (by decide)
      · obtain ⟨x, rfl⟩ : ∃ x, sign = [x] := by
          rcases hsign with rfl | rfl <;> exact ⟨_, rfl⟩
        obtain ⟨rfl, rfl⟩ := List.cons.inj htail
        simpa using length_le_takeWhile rfl hdigits

end Exponent

/-- The longest number at the start of a text: its digits and points, and its exponent. -/
lemma longest_numeral {c : UInt8} {t m rest : Bytes} (hc : Bytes.isDigit c || c == 46)
    (hm : m = (c :: t).takeWhile fun b => Bytes.isDigit b || b == 46)
    (hrest : rest = (c :: t).drop m.length) :
    Longest IsNumeral (c :: t) (m ++ rest.take (exponentLength rest))
      (rest.drop (exponentLength rest)) := by
  have hexp := longest_exponent rest
  have hsplit : c :: t = m ++ rest := by
    rw [hrest, hm, drop_length_takeWhile, List.takeWhile_append_dropWhile]
  have hmantissa : IsMantissa m := by
    intro b hb
    rw [hm] at hb
    exact List.mem_takeWhile_imp (p := fun b => Bytes.isDigit b || b == 46) hb
  have hne : m ≠ [] := by
    rw [hm, List.takeWhile_cons_of_pos (p := fun b => Bytes.isDigit b || b == 46) hc]
    simp
  refine ⟨?_, ⟨m, _, rfl, hne, hmantissa, hexp.holds⟩, ?_⟩
  · rw [List.append_assoc, ← hexp.split, hsplit]
  · rintro _ r' hs ⟨m', e', rfl, -, hm', he'⟩
    rw [List.append_assoc] at hs
    cases he' with
    | absent =>
      have hle := length_le_takeWhile hs hm'
      rw [← hm] at hle
      simp only [List.append_nil, List.length_append]
      omega
    | @present mark sign digits hmark hsign hdigits =>
      -- The mark of an exponent ends the run of digits and points.
      have hstop : ¬(Bytes.isDigit mark || mark == 46) := by
        rcases hmark with rfl | rfl <;> decide
      obtain rfl : m = m' := by
        rw [hm, hs, List.takeWhile_append_of_pos hm', List.cons_append,
          List.takeWhile_cons_of_neg (p := fun b => Bytes.isDigit b || b == 46) hstop,
          List.append_nil]
      have hlong := hexp.longest _ r' (List.append_cancel_left (hsplit.symm.trans hs))
        (.present hmark hsign hdigits)
      simp only [List.length_append] at hlong ⊢
      omega

/-- The number of joined digits is that of the first ones, shifted, and of the last ones. -/
lemma digitsValue_append (ds es : Bytes) :
    digitsValue (ds ++ es) = digitsValue ds * 10 ^ es.length + digitsValue es := by
  simp only [digitsValue, List.reverse_append, List.map_append, Nat.ofDigits_append, List.length_map,
    List.length_reverse]
  ring

/-- The number of a digit is what its character stands for. -/
lemma digitsValue_singleton (d : UInt8) : digitsValue [d] = d.toNat - 48 := by
  simp [digitsValue]

/-- A digit is read as what its character stands for. -/
lemma digitValue?_of_isDigit {d : UInt8} (hd : Bytes.isDigit d) :
    Number.digitValue? d = some (d.toNat - 48) := by
  have hlower : Bytes.lowerByte d = d := by
    simp only [Bytes.isDigit, Bool.and_eq_true, decide_eq_true_eq, UInt8.le_iff_toNat_le] at hd
    have hsmall : ¬(65 : UInt8) ≤ d := by
      rw [UInt8.le_iff_toNat_le]
      exact fun h => absurd (h.trans hd.2) (by decide)
    simp [Bytes.lowerByte, hsmall]
  simp [Number.digitValue?, hlower, hd]

/-- Decimal digits are digits in base ten. -/
lemma isDigitOf_of_isDigit {d : UInt8} (hd : Bytes.isDigit d) : Number.isDigitOf 10 d := by
  rw [Number.isDigitOf, digitValue?_of_isDigit hd]
  simp only [Bytes.isDigit, Bool.and_eq_true, decide_eq_true_eq, UInt8.le_iff_toNat_le,
    UInt8.reduceToNat] at hd ⊢
  omega

/-- Reading a mantissa past digits. -/
lemma readMantissa_append {ds : Bytes} (hds : ∀ d ∈ ds, Bytes.isDigit d) (value places : Nat)
    (point any : Bool) (rest : Bytes) :
    Number.readMantissa 10 value places point any (ds ++ rest) =
      Number.readMantissa 10 (value * 10 ^ ds.length + digitsValue ds)
        (if point then places + ds.length else places) point (any || !ds.isEmpty) rest := by
  induction ds generalizing value places any with
  | nil => simp [digitsValue]
  | cons d ds ih =>
    rw [List.forall_mem_cons] at hds
    obtain ⟨hd, hds⟩ := hds
    have hunderscore : (d == 95) = false := by
      rw [beq_eq_false_iff_ne]
      rintro rfl
      exact absurd hd (by decide)
    have hpoint : (d == 46) = false := by
      rw [beq_eq_false_iff_ne]
      rintro rfl
      exact absurd hd (by decide)
    have hvalue : digitsValue (d :: ds) = (d.toNat - 48) * 10 ^ ds.length + digitsValue ds := by
      rw [← List.singleton_append, digitsValue_append, digitsValue_singleton]
    rw [List.cons_append, Number.readMantissa]
    simp only [hunderscore, hpoint, isDigitOf_of_isDigit hd, digitValue?_of_isDigit hd,
      Bool.false_and, Bool.false_eq_true, if_false, if_true, Option.getD_some]
    rw [ih hds, hvalue]
    congr 1
    · rw [List.length_cons]
      ring
    · cases point
      · rfl
      · simp only [if_true, List.length_cons]
        omega
    · simp

/-- A mantissa has digits only, or digits and a mantissa with a point in between. -/
lemma isMantissa_cases {m : Bytes} (hm : IsMantissa m) :
    (∀ d ∈ m, Bytes.isDigit d) ∨
      ∃ ws fs, m = ws ++ 46 :: fs ∧ (∀ d ∈ ws, Bytes.isDigit d) ∧ IsMantissa fs := by
  induction m with
  | nil => exact .inl nofun
  | cons b m ih =>
    obtain ⟨hb, htail⟩ := List.forall_mem_cons.1 hm
    rcases Bool.or_eq_true_iff.1 hb with hb | hb
    · rcases ih htail with hall | ⟨ws, fs, rfl, hws, hfs⟩
      · exact .inl (List.forall_mem_cons.2 ⟨hb, hall⟩)
      · exact .inr ⟨b :: ws, fs, rfl, List.forall_mem_cons.2 ⟨hb, hws⟩, hfs⟩
    · obtain rfl : b = 46 := by simpa using hb
      exact .inr ⟨[], m, rfl, nofun, htail⟩

section Decimal

variable {ws fs : Bytes}

/-- Digits are read as an integer. -/
lemma decimal?_digits (hws : ∀ d ∈ ws, Bytes.isDigit d) :
    decimal? ws = if ws = [] then none else some (digitsValue ws : Rat) := by
  have hread := readMantissa_append hws 0 0 false false []
  rw [List.append_nil, Number.readMantissa] at hread
  simp [decimal?, hread]

/-- What is read once a point was met after digits. -/
lemma readMantissa_point (hws : ∀ d ∈ ws, Bytes.isDigit d) (hfs : ∀ d ∈ fs, Bytes.isDigit d)
    (rest : Bytes) :
    Number.readMantissa 10 0 0 false false (ws ++ 46 :: (fs ++ rest)) =
      Number.readMantissa 10 (digitsValue (ws ++ fs)) fs.length true (!(ws ++ fs).isEmpty) rest := by
  rw [readMantissa_append hws, Number.readMantissa]
  simp only [beq_self_eq_true, Bool.not_false, Bool.and_true, if_true,
    show ((46 : UInt8) == 95) = false from rfl, Bool.false_eq_true, if_false]
  have hany : (!ws.isEmpty || !fs.isEmpty) = !(ws ++ fs).isEmpty := by
    cases ws <;> rfl
  rw [readMantissa_append hfs, digitsValue_append, ← hany]
  simp

/-- Digits with a point in between are read as a fraction. -/
lemma decimal?_point (hws : ∀ d ∈ ws, Bytes.isDigit d) (hfs : ∀ d ∈ fs, Bytes.isDigit d) :
    decimal? (ws ++ 46 :: fs) =
      if ws ++ fs = [] then none else some (digitsValue (ws ++ fs) / 10 ^ fs.length : Rat) := by
  have hread := readMantissa_point hws hfs []
  rw [List.append_nil, Number.readMantissa] at hread
  rw [decimal?, hread]
  cases ws ++ fs <;> simp

/-- Two points are not read. -/
lemma decimal?_two_points (hws : ∀ d ∈ ws, Bytes.isDigit d) (hfs : ∀ d ∈ fs, Bytes.isDigit d)
    (rest : Bytes) :
    decimal? (ws ++ 46 :: (fs ++ 46 :: rest)) = none := by
  have hread := readMantissa_point hws hfs (46 :: rest)
  have hstop : Number.isDigitOf 10 46 = false := by decide
  rw [Number.readMantissa] at hread
  simp [decimal?, hread, hstop]

end Decimal

/-- Digits and points denote what is read from them. -/
lemma denotes_mantissa {m : Bytes} {x : Literal} (hm : IsMantissa m) :
    Denotes m x ↔ ∃ q, decimal? m = some q ∧ x = .exact q := by
  constructor
  · intro h
    cases h with
    | integer hne hds => exact ⟨_, by rw [decimal?_digits hds, if_neg hne], rfl⟩
    | decimal hne hws hfs => exact ⟨_, by rw [decimal?_point hws hfs, if_neg hne], rfl⟩
    | float hmark h =>
      rcases hmark with hmark | hmark <;> exact absurd (hm _ hmark) (by decide)
  · rintro ⟨q, hq, rfl⟩
    rcases isMantissa_cases hm with hds | ⟨ws, fs, rfl, hws, hfs⟩
    · rw [decimal?_digits hds] at hq
      split at hq
      · cases hq
      · cases hq
        exact .integer (by assumption) hds
    · rcases isMantissa_cases hfs with hfs | ⟨gs, hs, rfl, hgs, -⟩
      · rw [decimal?_point hws hfs] at hq
        split at hq
        · cases hq
        · cases hq
          exact .decimal (by assumption) hws hfs
      · rw [decimal?_two_points hws hgs hs] at hq
        cases hq

/-- A number with the mark of an exponent denotes a floating-point number. -/
lemma denotes_float {w : Bytes} {x : Literal} (hmark : 101 ∈ w ∨ 69 ∈ w) :
    Denotes w x ↔ ∃ y, Number.readFloat w = .ok y ∧ x = .float y := by
  have hno : ∀ {u : Bytes}, (∀ d ∈ u, Bytes.isDigit d || d == 46) → ¬(101 ∈ u ∨ 69 ∈ u) := by
    rintro u hu (h | h) <;> exact absurd (hu _ h) (by decide)
  constructor
  · intro h
    cases h with
    | integer hne hds => exact absurd hmark (hno fun d hd => by simp [hds d hd])
    | @decimal ws fs hne hws hfs =>
      refine absurd hmark (hno fun d hd => ?_)
      rcases List.mem_append.1 hd with hd | hd
      · simp [hws d hd]
      · rcases List.mem_cons.1 hd with rfl | hd
        · rfl
        · simp [hfs d hd]
    | float hmark h => exact ⟨_, h, rfl⟩
  · rintro ⟨y, hy, rfl⟩
    exact .float hmark hy

/-- The reader of numbers takes the longest number and gives it its value. -/
lemma number_eq_ok_iff {env : Env} {c : UInt8} {t r : Bytes} {e : Expr}
    (hc : Bytes.isDigit c || c == 46) :
    number env (c :: t) = .ok (e, r) ↔ ∃ x, Lexeme (c :: t) (.number x) r ∧ e = Expr.number x := by
  generalize hm : ((c :: t).takeWhile fun b => Bytes.isDigit b || b == 46) = m
  generalize hrest : (c :: t).drop m.length = rest
  have hlongest := longest_numeral hc hm.symm hrest.symm
  have hmantissa : IsMantissa m := by
    intro b hb
    rw [← hm] at hb
    exact List.mem_takeWhile_imp (p := fun b => Bytes.isDigit b || b == 46) hb
  have hlexeme : ∀ x, Lexeme (c :: t) (.number x) r ↔
      Denotes (m ++ rest.take (exponentLength rest)) x ∧ r = rest.drop (exponentLength rest) := by
    intro x
    constructor
    · intro h
      cases h with
      | number h hx =>
        obtain ⟨rfl, rfl⟩ := h.unique hlongest
        exact ⟨hx, rfl⟩
    · rintro ⟨hx, rfl⟩
      exact .number hlongest hx
  simp only [hlexeme, number, hm, hrest]
  by_cases htail : exponentLength rest = 0
  · simp only [htail, if_true, List.take_zero, List.append_nil, List.drop_zero,
      denotes_mantissa hmantissa]
    cases decimal? m with
    | none => simp [Env.fail]
    | some q => simp [eq_comm, and_comm]
  · have hmark : 101 ∈ m ++ rest.take (exponentLength rest) ∨
        69 ∈ m ++ rest.take (exponentLength rest) := by
      have hhead := mt exponentLength_absent htail
      push Not at hhead
      obtain ⟨b, hhead, hb⟩ := hhead
      obtain ⟨u, rfl⟩ := List.head?_eq_some_iff.1 hhead
      obtain ⟨n, hn⟩ := Nat.exists_eq_succ_of_ne_zero htail
      rw [hn, List.take_succ_cons]
      rcases hb with rfl | rfl <;> simp
    simp only [htail, if_false, denotes_float hmark]
    cases Number.readFloat (m ++ rest.take (exponentLength rest)) with
    | error p => simp [Env.fail]
    | ok y => simp [eq_comm, and_comm]

/-! ### Spelling -/

/-- How the first byte tells what token stands there. -/
def Token.StartsWith (c : UInt8) : Token → Prop
  | .mark m => c = m.byte
  | .name _ => Bytes.isLetter c
  | .number _ => Bytes.isDigit c || c == 46

section Lexemes

variable {s r r' : Bytes} {t t' : Token} {ts ts' : List Token} {m : Mark}

/-- Marks are told apart by their characters. -/
lemma Mark.byte_injective : Function.Injective Mark.byte := by
  intro m n
  cases m <;> cases n <;> decide

/-- Marks are no letters. -/
lemma Mark.not_letter (m : Mark) : ¬Bytes.isLetter m.byte := by
  cases m <;> decide

/-- Marks begin no numbers. -/
lemma Mark.not_digit (m : Mark) : ¬(Bytes.isDigit m.byte || m.byte == 46) := by
  cases m <;> decide

/-- Letters begin no numbers. -/
lemma not_letter_and_digit {c : UInt8} (hc : Bytes.isLetter c) : ¬(Bytes.isDigit c || c == 46) := by
  simp only [Bytes.isLetter, Bytes.isDigit, Bool.or_eq_true, Bool.and_eq_true, decide_eq_true_eq,
    beq_iff_eq, UInt8.le_iff_toNat_le, ← UInt8.toNat_inj, UInt8.reduceToNat] at hc ⊢
  omega

/-- No token starts with a blank. -/
lemma Token.StartsWith.not_blank {c : UInt8} (h : t.StartsWith c) : ¬isBlank c := by
  intro hc
  simp only [isBlank, Bool.or_eq_true, beq_iff_eq] at hc
  cases t with
  | mark m =>
    cases h
    cases m <;> exact absurd hc (by decide)
  | name w =>
    simp only [StartsWith] at h
    rcases hc with ((rfl | rfl) | rfl) | rfl <;> exact absurd h (by decide)
  | number x =>
    simp only [StartsWith] at h
    rcases hc with ((rfl | rfl) | rfl) | rfl <;> exact absurd h (by decide)

/-- The first character of a lexeme says which kind of token it is. -/
lemma Lexeme.head (h : Lexeme s t r) : ∃ c u, s = c :: u ∧ t.StartsWith c := by
  cases h with
  | mark => exact ⟨_, _, rfl, rfl⟩
  | name h =>
    obtain ⟨c, u, rfl, hc, -⟩ := h.holds
    exact ⟨c, _, h.split, hc⟩
  | number h hx =>
    obtain ⟨m, e, rfl, hne, hm, -⟩ := h.holds
    obtain ⟨c, u, rfl⟩ := List.exists_cons_of_ne_nil hne
    exact ⟨c, _, h.split, hm c List.mem_cons_self⟩

/-- The lexeme of a mark is its character. -/
lemma lexeme_mark_iff : Lexeme s (.mark m) r ↔ s = m.byte :: r := by
  constructor
  · intro h
    cases h
    rfl
  · rintro rfl
    exact .mark

/-- There is at most one token at the start of a text. -/
lemma Lexeme.unique (h : Lexeme s t r) (h' : Lexeme s t' r') : t = t' ∧ r = r' := by
  obtain ⟨c, u, rfl, hc⟩ := h.head
  obtain ⟨_, _, heq, hc'⟩ := h'.head
  obtain ⟨rfl, rfl⟩ := List.cons.inj heq
  cases t with
  | mark m =>
    cases t' with
    | mark m' =>
      rw [lexeme_mark_iff] at h h'
      obtain ⟨hbyte, rfl⟩ := List.cons.inj (h.symm.trans h')
      exact ⟨congrArg _ (Mark.byte_injective hbyte), rfl⟩
    | name w' =>
      cases hc
      exact absurd hc' m.not_letter
    | number x' =>
      cases hc
      exact absurd hc' m.not_digit
  | name w =>
    cases t' with
    | mark m' =>
      cases hc'
      exact absurd hc m'.not_letter
    | name w' =>
      rw [lexeme_name_iff] at h h'
      exact ⟨congrArg _ (h.2.1.trans h'.2.1.symm), h.2.2.trans h'.2.2.symm⟩
    | number x' => exact absurd hc' (not_letter_and_digit hc)
  | number x =>
    cases t' with
    | mark m' =>
      cases hc'
      exact absurd hc m'.not_digit
    | name w' => exact absurd hc (not_letter_and_digit hc')
    | number x' =>
      -- Both are what the reader of numbers gives.
      have hread : Parser.number ⟨[], 0⟩ _ = _ := (number_eq_ok_iff hc).2 ⟨x, h, rfl⟩
      rw [(number_eq_ok_iff hc').2 ⟨x', h', rfl⟩] at hread
      cases hread
      exact ⟨rfl, rfl⟩

/-- A lexeme is not empty. -/
lemma Lexeme.length_lt (h : Lexeme s t r) : r.length < s.length := by
  have hcut : ∃ w, s = w ++ r ∧ w ≠ [] := by
    cases h with
    | mark => exact ⟨[_], rfl, List.cons_ne_nil _ _⟩
    | name h =>
      obtain ⟨c, u, rfl, -⟩ := h.holds
      exact ⟨_, h.split, List.cons_ne_nil c u⟩
    | number h =>
      obtain ⟨m, e, rfl, hne, -⟩ := h.holds
      exact ⟨_, h.split, List.append_ne_nil_of_left_ne_nil hne e⟩
  obtain ⟨w, rfl, hne⟩ := hcut
  have hpos := List.length_pos_iff.2 hne
  rw [List.length_append]
  omega

/-- Blanks are skipped. -/
lemma skip_of_blank {b : UInt8} (hb : isBlank b) : skip (b :: s) = skip s :=
  List.dropWhile_cons_of_pos hb

/-- Nothing is skipped in front of a lexeme. -/
lemma Lexeme.skip (h : Lexeme s t r) : skip s = s := by
  obtain ⟨c, u, rfl, hc⟩ := h.head
  exact List.dropWhile_cons_of_neg hc.not_blank

/-- Blanks before a text do not count. -/
lemma spelled_skip_iff : Spelled (skip s) ts ↔ Spelled s ts := by
  constructor
  · intro h
    induction s with
    | nil => exact h
    | cons b s ih =>
      by_cases hb : isBlank b
      · rw [skip_of_blank hb] at h
        exact .blank hb (ih h)
      · rwa [Parser.skip, List.dropWhile_cons_of_neg hb] at h
  · intro h
    induction h with
    | done => exact .done
    | blank hb _ ih => rwa [skip_of_blank hb]
    | token ht h _ =>
      rw [ht.skip]
      exact .token ht h

end Lexemes

/-- The next token of a text, and the text after it. -/
def Next (s : Bytes) (t : Token) (r : Bytes) : Prop := Lexeme (skip s) t r

section Spelling

variable {s r r' : Bytes} {t t' : Token} {ts ts' : List Token} {m : Mark}

/-- There is one next token. -/
lemma Next.unique (h : Next s t r) (h' : Next s t' r') : t = t' ∧ r = r' :=
  Lexeme.unique h h'

/-- Where there is a next token, there is more than blanks. -/
lemma Next.skip_ne_nil (h : Next s t r) : skip s ≠ [] := by
  obtain ⟨c, u, hs, -⟩ := Lexeme.head h
  rw [hs]
  exact List.cons_ne_nil c u

/-- The next token uses some of the text. -/
lemma Next.length_lt (h : Next s t r) : r.length < s.length :=
  (Lexeme.length_lt h).trans_le (length_skip_le s)

/-- No tokens are spelled by blanks only. -/
lemma spelled_nil_iff : Spelled s [] ↔ skip s = [] := by
  constructor
  · intro h
    generalize hl : ([] : List Token) = l at h
    induction h with
    | done => rfl
    | blank hb _ ih => rw [skip_of_blank hb, ih hl]
    | token => cases hl
  · intro h
    rw [← spelled_skip_iff, h]
    exact .done

/-- A list of tokens is spelled token by token. -/
lemma spelled_cons_iff : Spelled s (t :: ts) ↔ ∃ r, Next s t r ∧ Spelled r ts := by
  constructor
  · intro h
    generalize hl : t :: ts = l at h
    induction h with
    | done => cases hl
    | blank hb _ ih =>
      obtain ⟨r, hnext, hr⟩ := ih hl
      exact ⟨r, by rwa [Next, skip_of_blank hb], hr⟩
    | token ht h _ =>
      cases hl
      exact ⟨_, by rwa [Next, ht.skip], h⟩
  · rintro ⟨r, hnext, hr⟩
    exact spelled_skip_iff.1 (.token hnext hr)

/-- A text spells at most one sequence of tokens. -/
lemma Spelled.unique (h : Spelled s ts) (h' : Spelled s ts') : ts = ts' := by
  induction ts generalizing s ts' with
  | nil =>
    cases ts' with
    | nil => rfl
    | cons t' ts' =>
      obtain ⟨r', hnext', -⟩ := spelled_cons_iff.1 h'
      exact absurd (spelled_nil_iff.1 h) hnext'.skip_ne_nil
  | cons t ts ih =>
    obtain ⟨r, hnext, hr⟩ := spelled_cons_iff.1 h
    cases ts' with
    | nil => exact absurd (spelled_nil_iff.1 h') hnext.skip_ne_nil
    | cons t' ts' =>
      obtain ⟨r', hnext', hr'⟩ := spelled_cons_iff.1 h'
      obtain ⟨rfl, rfl⟩ := hnext.unique hnext'
      rw [ih hr hr']

/-- A byte is accepted exactly as the mark that it is. -/
lemma accept_eq_some_iff : accept m.byte s = some r ↔ Next s (.mark m) r := by
  rw [Next, lexeme_mark_iff, accept]
  cases skip s with
  | nil => simp
  | cons b u => by_cases hb : b = m.byte <;> simp [hb]

/-- The next token of a text is the first one that it spells. -/
lemma Spelled.not_next (h : Spelled s ts) (hm : ts.head? ≠ some (.mark m)) (r : Bytes) :
    ¬Next s (.mark m) r := by
  intro hnext
  cases ts with
  | nil => exact absurd (spelled_nil_iff.1 h) hnext.skip_ne_nil
  | cons t ts =>
    obtain ⟨r', hnext', -⟩ := spelled_cons_iff.1 h
    obtain ⟨rfl, -⟩ := hnext'.unique hnext
    exact absurd rfl hm

end Spelling

end Indicial.Expr.Parser
