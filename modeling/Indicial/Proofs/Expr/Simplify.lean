import Indicial.Proofs.Expr.Rewrite

/-!
# Simplification keeps meaning

Simplification rebuilds a node over its simplified operands and then reduces its root until no rule
applies. Both steps keep well-formedness and the free labels up to order. Simplified expressions are
in normal form: no rule applies anywhere in them. So the only reductions that can fail are those of
the nodes that are rebuilt, and a simplification fails only where a denominator has become a literal
zero or a literal zero is raised to a negative power. As long as no literals are folded into a
floating-point number, the result has the value of the expression (`simplify_preserves`).
-/

namespace Indicial.Expr

open Indicial.Valuation

section Operands

variable {n l r : Expr}

/-- Simplifying leaves leaves alone. -/
lemma simplify_of_leaf (h : n.operands? = none) : simplify n = .ok n := by
  cases n <;> simp_all [operands?, simplify]

/-- A node is rebuilt over its simplified operands, then reduced. -/
lemma simplify_of_operands (h : n.operands? = some (l, r)) :
    simplify n = (do normalize (← rebuild n (← simplify l) (← simplify r))) := by
  -- The only operand is simplified once, which gives the same as simplifying it twice.
  have htwice : ∀ (e : Expr) (k : Expr → Expr → Except Fault Expr),
      (do let e' ← simplify e; k e' e') = (do k (← simplify e) (← simplify e)) := by
    intro e k
    cases simplify e <;> rfl
  cases n <;> cases h
  case negate => rw [simplify, htwice _ fun l' r' => rebuild (negate l) l' r' >>= normalize]
  case apply f => rw [simplify, htwice _ fun l' r' => rebuild (apply f l) l' r' >>= normalize]
  case bind target =>
    rw [simplify, htwice _ fun l' r' => rebuild (bind l target) l' r' >>= normalize]
  case derivative along =>
    rw [simplify, htwice _ fun l' r' => rebuild (derivative l along) l' r' >>= normalize]
  all_goals rw [simplify]

/-- An expression without marks is no mark. -/
lemma kind_ne_derivative (h : n.hasDerivative = false) : n.kind ≠ .derivative := by
  cases n <;> simp_all [hasDerivative, kind]

/-- Operands of an expression without floats have none. -/
lemma exactLiterals_operands (h : n.operands? = some (l, r)) (hn : n.exactLiterals = true) :
    l.exactLiterals = true ∧ r.exactLiterals = true := by
  cases n <;> cases h <;> simp_all [exactLiterals]

end Operands

/-! ### Rebuilding a node -/

/-- `Rebuilt n m l' r'` says that `m` is the node `n` with the operands `l'` and `r'` in place of its
own; a relabelling sends the same labels to the same targets. -/
inductive Rebuilt : Expr → Expr → Expr → Expr → Prop where
  | negate {l l' r'} : Rebuilt (negate l) (negate l') l' r'
  | apply {f l l' r'} : Rebuilt (apply f l) (apply f l') l' r'
  | bind {l l' r'} (f : Label → Label) :
    Rebuilt (bind l (l.outer.map f)) (bind l' (l'.outer.map f)) l' r'
  | sum {l r l' r'} : Rebuilt (sum l r) (sum l' r') l' r'
  | difference {l r l' r'} : Rebuilt (difference l r) (difference l' r') l' r'
  | product {l r l' r'} : Rebuilt (product l r) (product l' r') l' r'
  | ratio {l r l' r'} : r'.isZero = false → Rebuilt (ratio l r) (ratio l' r') l' r'
  | power {l r l' r'} : Rebuilt (power l r) (power l' r') l' r'

section Rebuild

variable {n m l r l' r' : Expr}

/-- Over operands with the same free labels a node can be rebuilt, unless it is a ratio and its new
denominator a literal zero. -/
lemma rebuild_rebuilt (hops : n.operands? = some (l, r)) (hkind : n.kind ≠ .derivative)
    (hn : n.WellFormed) (hl : l'.outer.Perm l.outer) (hr : r'.outer.Perm r.outer) :
    (∃ m, rebuild n l' r' = .ok m ∧ Rebuilt n m l' r') ∨
      (n = ratio l r ∧ r'.isZero = true ∧
        rebuild n l' r' = .error (.zeroDenominator l'.toBytes)) := by
  cases n with
  | literal => cases hops
  | tensor => cases hops
  | delta => cases hops
  | epsilon => cases hops
  | scalar => cases hops
  | negate e => exact .inl ⟨_, rfl, .negate⟩
  | apply f e =>
    cases hops
    have hrank : l'.outer = [] := List.perm_nil.1 (hn.2 ▸ hl)
    exact .inl ⟨_, mkApply_eq_ok_iff.2 ⟨rfl, hrank⟩, .apply⟩
  | bind e target =>
    cases hops
    obtain ⟨f, rfl⟩ := exists_relabelling hn.1.nodup_outer hn.2
    refine .inl ⟨bind l' (l'.outer.map f), ?_, .bind f⟩
    rw [rebuild, relabel_map f hl]
    exact mkBind_eq_ok_iff.2 ⟨rfl, List.length_map _⟩
  | derivative => exact absurd rfl hkind
  | sum =>
    cases hops
    exact .inl ⟨_, mkSum_eq_ok_iff.2 ⟨rfl, hl.trans (hn.2.2.trans hr.symm)⟩, .sum⟩
  | difference =>
    cases hops
    exact .inl ⟨_, mkDifference_eq_ok_iff.2 ⟨rfl, hl.trans (hn.2.2.trans hr.symm)⟩, .difference⟩
  | product =>
    cases hops
    have hlen := (Index.symmetricDifference_perm hl hr).length_eq
    exact .inl ⟨_, mkProduct_eq_ok_iff.2 ⟨rfl, hlen.trans_le hn.2.2⟩, .product⟩
  | ratio =>
    cases hops
    have hlen := (Index.symmetricDifference_perm hl hr).length_eq
    cases hzero : r'.isZero with
    | false =>
      exact .inl ⟨_, mkRatio_eq_ok_iff.2 ⟨rfl, hzero, hlen.trans_le hn.2.2.2⟩, .ratio hzero⟩
    | true =>
      refine .inr ⟨rfl, rfl, ?_⟩
      rw [rebuild, mkRatio, if_pos hzero]
  | power =>
    cases hops
    have hl' : l'.outer = [] := List.perm_nil.1 (hn.2.2.1 ▸ hl)
    have hr' : r'.outer = [] := List.perm_nil.1 (hn.2.2.2 ▸ hr)
    exact .inl ⟨_, mkPower_eq_ok_iff.2 ⟨rfl, hl', hr'⟩, .power⟩

/-- A rebuilt node is well formed, with the same free labels up to order. -/
lemma Rebuilt.wellFormed (h : Rebuilt n m l' r') (hops : n.operands? = some (l, r))
    (hn : n.WellFormed) (hl' : l'.WellFormed) (hr' : r'.WellFormed)
    (hl : l'.outer.Perm l.outer) (hr : r'.outer.Perm r.outer) :
    m.WellFormed ∧ m.outer.Perm n.outer := by
  cases h with
  | negate =>
    cases hops
    exact ⟨hl', hl⟩
  | apply =>
    cases hops
    exact ⟨⟨hl', List.perm_nil.1 (hn.2 ▸ hl)⟩, .refl _⟩
  | bind f =>
    cases hops
    exact ⟨⟨hl', List.length_map _⟩, Index.exclusive_perm (hl.map f)⟩
  | sum =>
    cases hops
    exact ⟨⟨hl', hr', hl.trans (hn.2.2.trans hr.symm)⟩, hl⟩
  | difference =>
    cases hops
    exact ⟨⟨hl', hr', hl.trans (hn.2.2.trans hr.symm)⟩, hl⟩
  | product =>
    cases hops
    have hperm := Index.symmetricDifference_perm hl hr
    exact ⟨⟨hl', hr', hperm.length_eq.trans_le hn.2.2⟩, hperm⟩
  | ratio hzero =>
    cases hops
    have hperm := Index.symmetricDifference_perm hl hr
    exact ⟨⟨hl', hr', hzero, hperm.length_eq.trans_le hn.2.2.2⟩, hperm⟩
  | power =>
    cases hops
    exact ⟨⟨hl', hr', List.perm_nil.1 (hn.2.2.1 ▸ hl), List.perm_nil.1 (hn.2.2.2 ▸ hr)⟩, .refl _⟩

/-- New operands without marks bring none in. -/
lemma Rebuilt.hasDerivative (h : Rebuilt n m l' r') (hl' : l'.hasDerivative = false)
    (hr' : r'.hasDerivative = false) : m.hasDerivative = false := by
  cases h <;> simp [Expr.hasDerivative, hl', hr']

/-- New operands without floats bring none in. -/
lemma Rebuilt.exactLiterals (h : Rebuilt n m l' r') (hl' : l'.exactLiterals = true)
    (hr' : r'.exactLiterals = true) : m.exactLiterals = true := by
  cases h <;> simp [Expr.exactLiterals, hl', hr']

/-- A node rebuilt over agreeing operands agrees. -/
lemma Rebuilt.agrees {K : Type*} [Field K] {I : Interpretation K} {dim : Nat}
    (h : Rebuilt n m l' r') (hops : n.operands? = some (l, r)) (hn : n.WellFormed)
    (hl' : l'.WellFormed) (hl : Agrees I dim l' l) (hr : Agrees I dim r' r) :
    Agrees I dim m n := by
  cases h with
  | negate =>
    cases hops
    exact hl.negate
  | apply =>
    cases hops
    exact hl.apply _
  | bind f =>
    cases hops
    exact hl.bind hl' hn.1 f
  | sum =>
    cases hops
    exact hl.sum hr
  | difference =>
    cases hops
    exact hl.difference hr
  | product =>
    cases hops
    exact hl.product hr
  | ratio =>
    cases hops
    exact hl.ratio hr
  | power =>
    cases hops
    exact hl.power hr

end Rebuild

/-! ### Normal forms -/

/-- No rule applies anywhere in the expression. -/
def Normal (e : Expr) : Prop := ∀ s ∈ e.postorder, reduceRoot s = .ok none

/-- No rule applies anywhere in the operands. -/
def OperandsNormal (n : Expr) : Prop := ∀ l r, n.operands? = some (l, r) → Normal l ∧ Normal r

section Normal

variable {n m : Expr}

/-- No rule applies to an expression exactly if none applies at its root and none in its operands. -/
lemma normal_iff : Normal n ↔ reduceRoot n = .ok none ∧ OperandsNormal n := by
  cases h : n.operands? with
  | none => simp [Normal, OperandsNormal, mem_postorder_of_leaf h, h]
  | some p =>
    obtain ⟨l, r⟩ := p
    simp only [Normal, OperandsNormal, mem_postorder_of_operands h, h, Option.some.injEq,
      Prod.mk.injEq]
    constructor
    · intro hall
      refine ⟨hall n (by simp), ?_⟩
      rintro _ _ ⟨rfl, rfl⟩
      exact ⟨fun s hs => hall s (.inl hs), fun s hs => hall s (.inr (.inl hs))⟩
    · rintro ⟨hroot, hops⟩ s (hs | hs | rfl)
      · exact (hops l r ⟨rfl, rfl⟩).1 s hs
      · exact (hops l r ⟨rfl, rfl⟩).2 s hs
      · exact hroot

/-- The operands of a normal form are normal. -/
lemma Normal.operands (h : Normal n) : OperandsNormal n := (normal_iff.1 h).2

/-- A leaf has no operands. -/
lemma operandsNormal_of_leaf (h : n.operands? = none) : OperandsNormal n := by
  intro l r hops
  rw [h] at hops
  cases hops

/-- No rule applies to a literal. -/
lemma normal_literal (x : Literal) (labels : Index) : Normal (literal x labels) :=
  normal_iff.2 ⟨rfl, operandsNormal_of_leaf rfl⟩

/-- Both operands are normal. -/
lemma OperandsNormal.pair {l r : Expr} (h : OperandsNormal n) (hops : n.operands? = some (l, r)) :
    Normal l ∧ Normal r := h l r hops

/-- Normal operands make all operands normal. -/
lemma operandsNormal_of_pair {l r : Expr} (hops : n.operands? = some (l, r)) (hl : Normal l)
    (hr : Normal r) : OperandsNormal n := by
  intro l' r' h
  rw [hops] at h
  cases h
  exact ⟨hl, hr⟩

/-- What a rule makes from operands in normal form is one of these operands or a part of one, or a
new node over such parts and literals. No rule makes a new power. -/
lemma Rewrites.operandsNormal (h : Rewrites n m) (hn : OperandsNormal n) :
    OperandsNormal m ∧ (Normal m ∨ m.kind ≠ .power) := by
  have whole : ∀ {e}, Normal e → OperandsNormal e ∧ (Normal e ∨ e.kind ≠ .power) :=
    fun he => ⟨he.operands, .inl he⟩
  cases h with
  | addZero => exact whole (hn.pair rfl).1
  | zeroAdd => exact whole (hn.pair rfl).2
  | negateAdd =>
    obtain ⟨hl, hr⟩ := hn.pair rfl
    exact ⟨operandsNormal_of_pair rfl hr (hl.operands.pair rfl).1, .inr (by simp [kind])⟩
  | addNegate =>
    obtain ⟨hl, hr⟩ := hn.pair rfl
    exact ⟨operandsNormal_of_pair rfl hl (hr.operands.pair rfl).1, .inr (by simp [kind])⟩
  | double =>
    obtain ⟨hl, -⟩ := hn.pair rfl
    exact ⟨operandsNormal_of_pair rfl (normal_literal _ _) hl, .inr (by simp [kind])⟩
  | subtractZero => exact whole (hn.pair rfl).1
  | zeroSubtract =>
    obtain ⟨-, hr⟩ := hn.pair rfl
    exact ⟨operandsNormal_of_pair rfl hr hr, .inr (by simp [kind])⟩
  | subtractNegate =>
    obtain ⟨hl, hr⟩ := hn.pair rfl
    exact ⟨operandsNormal_of_pair rfl hl (hr.operands.pair rfl).1, .inr (by simp [kind])⟩
  | oneMultiply => exact whole (hn.pair rfl).2
  | multiplyOne => exact whole (hn.pair rfl).1
  | commute =>
    obtain ⟨hl, hr⟩ := hn.pair rfl
    exact ⟨operandsNormal_of_pair rfl hr hl, .inr (by simp [kind])⟩
  -- The coefficients are folded into one literal, in front of the inner factor.
  | mergeCoefficients =>
    obtain ⟨-, hr⟩ := hn.pair rfl
    exact ⟨operandsNormal_of_pair rfl (normal_literal _ _) (hr.operands.pair rfl).2,
      .inr (by simp [kind])⟩
  | divideOne => exact whole (hn.pair rfl).1
  | negateNegate => exact whole ((hn.pair rfl).1.operands.pair rfl).1
  | negateCoefficient =>
    obtain ⟨hl, -⟩ := hn.pair rfl
    exact ⟨operandsNormal_of_pair rfl (normal_literal _ _) (hl.operands.pair rfl).2,
      .inr (by simp [kind])⟩
  | raiseOne => exact whole (hn.pair rfl).1
  | bindIdentity => exact whole (hn.pair rfl).1
  | _ => exact whole (normal_literal _ _)

/-- A node rebuilt over operands in normal form. -/
lemma Rebuilt.operandsNormal {l' r' : Expr} (h : Rebuilt n m l' r') (hl' : Normal l')
    (hr' : Normal r') : OperandsNormal m := by
  cases h with
  | negate => exact operandsNormal_of_pair rfl hl' hl'
  | apply => exact operandsNormal_of_pair rfl hl' hl'
  | bind => exact operandsNormal_of_pair rfl hl' hl'
  | _ => exact operandsNormal_of_pair rfl hl' hr'

end Normal

/-! ### Reducing the root -/

/-- A property that every reduction keeps holds where reducing the root ends, in a normal form or in
an error. -/
theorem normalize_invariant {P : Expr → Prop}
    (step : ∀ n m, P n → reduceRoot n = .ok (some m) → P m) {n : Expr} (hn : P n) :
    (∃ m, P m ∧ normalize n = .ok m ∧ reduceRoot m = .ok none) ∨
      ∃ m f, P m ∧ normalize n = .error f ∧ reduceRoot m = .error f := by
  induction n using normalize.induct with
  | case1 n f h =>
    refine .inr ⟨n, f, hn, ?_, h⟩
    rw [normalize]
    split <;> simp_all
  | case2 n h =>
    refine .inl ⟨n, hn, ?_, h⟩
    rw [normalize]
    split <;> simp_all
  | case3 n m h ih =>
    have hstep : normalize n = normalize m := by
      rw [normalize]
      split <;> simp_all
    rw [hstep]
    exact ih (step n m hn h)

/-- What the rules keep holds of the reduced root. -/
lemma normalize_induction {P : Expr → Prop} (rule : ∀ n m, Rewrites n m → P n → P m) {n m : Expr}
    (hn : P n) (h : normalize n = .ok m) : P m := by
  have step : ∀ n m, P n → reduceRoot n = .ok (some m) → P m :=
    fun n m hn hstep => rule n m (reduceRoot_rewrites hstep) hn
  rcases normalize_invariant step hn with ⟨m', hm', hok, -⟩ | ⟨_, f, -, herr, -⟩
  · rw [hok] at h
    cases h
    exact hm'
  · rw [herr] at h
    cases h

/-- What operands inherit, and what rebuilding a node over others and the rules keep, holds of the
simplified expression. -/
theorem simplify_induction {P : Expr → Prop}
    (operands : ∀ n l r, n.operands? = some (l, r) → P n → P l ∧ P r)
    (rebuilt : ∀ n l r l' r' m, n.operands? = some (l, r) → P n → P l' → P r' →
      rebuild n l' r' = .ok m → P m)
    (rule : ∀ n m, Rewrites n m → P n → P m) {e e' : Expr} (he : P e) (h : simplify e = .ok e') :
    P e' := by
  induction e using operandsInduction generalizing e' with
  | leaf n hleaf =>
    rw [simplify_of_leaf hleaf] at h
    cases h
    exact he
  | node n l r hops ihl ihr =>
    obtain ⟨hl, hr⟩ := operands n l r hops he
    rw [simplify_of_operands hops] at h
    obtain ⟨l', hl', h⟩ := bind_eq_ok_iff.1 h
    obtain ⟨r', hr', h⟩ := bind_eq_ok_iff.1 h
    obtain ⟨m, hm, h⟩ := bind_eq_ok_iff.1 h
    exact normalize_induction rule (rebuilt n l r l' r' m hops he (ihl hl hl') (ihr hr hr') hm) h

/-- Whether reducing the root folds no literals into a floating-point number. -/
def normalizesExactly (n : Expr) : Bool :=
  !n.foldsToFloat && match _h : reduceRoot n with
    | .ok (some m) => normalizesExactly m
    | _ => true
termination_by n.weight
decreasing_by exact reduceRoot_lighter n m _h

/-- A step that folds no float leaves an expression that does not, either. -/
lemma normalizesExactly_step {n m : Expr} (hn : n.normalizesExactly = true)
    (h : reduceRoot n = .ok (some m)) : n.foldsToFloat = false ∧ m.normalizesExactly = true := by
  rw [normalizesExactly] at hn
  split at hn <;> simp_all

/-! ### Simplification -/

/-- The causes for which a simplification fails: a denominator that becomes a literal zero, and a
literal zero that is raised to a negative power. -/
inductive Vanishes (e : Expr) : Fault → Prop where
  | denominator {l r l' r'} :
    ratio l r ∈ e.postorder →
    simplify l = .ok l' →
    simplify r = .ok r' →
    r'.isZero = true →
    Vanishes e (.zeroDenominator l'.toBytes)
  | base {u v i j} {q : Rat} :
    power u v ∈ e.postorder →
    simplify u = .ok (literal (.exact 0) i) →
    simplify v = .ok (literal (.exact q) j) →
    q < 0 →
    Vanishes e (.zeroToNegative q.num)

/-- What vanishes in a part vanishes in the whole. -/
lemma Vanishes.mono {e n : Expr} {f : Fault} (h : Vanishes e f)
    (hsub : ∀ s ∈ e.postorder, s ∈ n.postorder) : Vanishes n f := by
  cases h with
  | denominator hmem hl hr hzero => exact .denominator (hsub _ hmem) hl hr hzero
  | base hmem hu hv hneg => exact .base (hsub _ hmem) hu hv hneg

/-- What a simplification gives: an expression in normal form with the free labels of `e`. -/
structure Simplified (e e' : Expr) : Prop where
  wellFormed : e'.WellFormed
  outer_perm : e'.outer.Perm e.outer
  hasDerivative : e'.hasDerivative = false
  normal : Normal e'

/-- Reducing a node over normal operands gives a normal form, unless the node itself is a negative
power of zero. -/
lemma normalize_simplified {n : Expr} (hn : n.WellFormed) (hmark : n.hasDerivative = false)
    (hops : OperandsNormal n) :
    (∃ m, normalize n = .ok m ∧ Simplified n m) ∨
      ∃ i j q, n = power (literal (.exact 0) i) (literal (.exact q) j) ∧ q < 0 ∧
        normalize n = .error (.zeroToNegative q.num) := by
  let P : Expr → Prop := fun m =>
    (m.WellFormed ∧ m.outer.Perm n.outer ∧ m.hasDerivative = false) ∧
      OperandsNormal m ∧ (Normal m ∨ m.kind ≠ .power ∨ m = n)
  have step : ∀ k m, P k → reduceRoot k = .ok (some m) → P m := by
    rintro k m ⟨⟨hk, hperm, hmark⟩, hops, -⟩ h
    have hrule := reduceRoot_rewrites h
    obtain ⟨hm, hperm'⟩ := hrule.wellFormed hk
    obtain ⟨hops', hor⟩ := hrule.operandsNormal hops
    exact ⟨⟨hm, hperm'.trans hperm, hrule.hasDerivative hmark⟩, hops',
      hor.imp_right Or.inl⟩
  have hstart : P n := ⟨⟨hn, .refl _, hmark⟩, hops, .inr (.inr rfl)⟩
  rcases normalize_invariant step hstart with ⟨m, ⟨hm, hops, -⟩, hok, hroot⟩ | ⟨m, f, hP, herr, hroot⟩
  · exact .inl ⟨m, hok, hm.1, hm.2.1, hm.2.2, normal_iff.2 ⟨hroot, hops⟩⟩
  · obtain ⟨⟨hm, -, -⟩, -, hor⟩ := hP
    obtain ⟨i, j, q, rfl, hq, rfl⟩ := reduceRoot_error hm hroot
    refine .inr ⟨i, j, q, ?_, hq, herr⟩
    rcases hor with hnormal | hkind | heq
    · rw [(normal_iff.1 hnormal).1] at hroot
      cases hroot
    · exact absurd rfl hkind
    · exact heq.symm

/-- A simplification gives a normal form with the same free labels, or it fails at a zero. -/
theorem simplify_simplified {e : Expr} (he : e.WellFormed) (hmark : e.hasDerivative = false) :
    (∃ e', simplify e = .ok e' ∧ Simplified e e') ∨
      ∃ f, simplify e = .error f ∧ Vanishes e f := by
  induction e using operandsInduction with
  | leaf n hleaf =>
    have hroot : reduceRoot n = .ok none := by cases n <;> first | rfl | cases hleaf
    exact .inl ⟨n, simplify_of_leaf hleaf, he, .refl _, hmark,
      normal_iff.2 ⟨hroot, operandsNormal_of_leaf hleaf⟩⟩
  | node n l r hops ihl ihr =>
    obtain ⟨hl, hr⟩ := wellFormed_operands hops he
    obtain ⟨hlmark, hrmark⟩ := hasDerivative_operands hops hmark
    have hmem : ∀ s, s ∈ n.postorder ↔ s ∈ l.postorder ∨ s ∈ r.postorder ∨ s = n :=
      fun s => mem_postorder_of_operands hops
    rw [simplify_of_operands hops]
    rcases ihl hl hlmark with ⟨l', hl', hsl⟩ | ⟨f, hf, hcause⟩
    swap
    · exact .inr ⟨f, by rw [hf]; rfl, hcause.mono fun s hs => (hmem s).2 (.inl hs)⟩
    rcases ihr hr hrmark with ⟨r', hr', hsr⟩ | ⟨f, hf, hcause⟩
    swap
    · exact .inr ⟨f, by rw [hl', hf]; rfl, hcause.mono fun s hs => (hmem s).2 (.inr (.inl hs))⟩
    rw [hl', hr', ok_bind, ok_bind]
    -- Rebuilding fails at a denominator that became zero, and reducing at a zero that is raised to
    -- a negative power. Nothing else fails.
    rcases rebuild_rebuilt hops (kind_ne_derivative hmark) he hsl.outer_perm hsr.outer_perm with
      ⟨m, hm, hreb⟩ | ⟨rfl, hzero, herr⟩
    swap
    · exact .inr ⟨_, by rw [herr]; rfl, .denominator (mem_postorder_self _) hl' hr' hzero⟩
    rw [hm, ok_bind]
    obtain ⟨hmwf, hmperm⟩ := hreb.wellFormed hops he hsl.wellFormed hsr.wellFormed
      hsl.outer_perm hsr.outer_perm
    have hmmark := hreb.hasDerivative hsl.hasDerivative hsr.hasDerivative
    rcases normalize_simplified hmwf hmmark (hreb.operandsNormal hsl.normal hsr.normal) with
      ⟨e', he', hs⟩ | ⟨i, j, q, rfl, hq, herr⟩
    · exact .inl ⟨e', he', hs.wellFormed, hs.outer_perm.trans hmperm, hs.hasDerivative, hs.normal⟩
    · cases hreb
      cases hops
      exact .inr ⟨_, herr, .base (mem_postorder_self _) hl' hr' hq⟩

/-- The result of a simplification that succeeds. -/
lemma simplified_of_simplify {e e' : Expr} (he : e.WellFormed) (hmark : e.hasDerivative = false)
    (h : simplify e = .ok e') : Simplified e e' := by
  rcases simplify_simplified he hmark with ⟨m, hm, hs⟩ | ⟨f, hf, -⟩
  · rw [hm] at h
    cases h
    exact hs
  · rw [hf] at h
    cases h

/-! ### Values -/

/-- Whether simplification folds no literals into a floating-point number, at any node. -/
def simplifiesExactly (e : Expr) : Bool :=
  e.postorder.all fun n =>
    match n.operands? with
    | none => true
    | some (l, r) =>
      match (do rebuild n (← simplify l) (← simplify r) : Except Fault Expr) with
      | .ok m => m.normalizesExactly
      | .error _ => true

section Values

variable {n l r m l' r' e e' : Expr}

/-- Simplifying operands folds no floats if simplifying the node does not. -/
lemma simplifiesExactly_operands (hops : n.operands? = some (l, r))
    (h : n.simplifiesExactly = true) :
    l.simplifiesExactly = true ∧ r.simplifiesExactly = true := by
  simp only [simplifiesExactly, List.all_eq_true, mem_postorder_of_operands hops] at h ⊢
  exact ⟨fun s hs => h s (.inl hs), fun s hs => h s (.inr (.inl hs))⟩

/-- Simplifying the root folds no floats, either. -/
lemma simplifiesExactly_root (hops : n.operands? = some (l, r)) (h : n.simplifiesExactly = true)
    (hl : simplify l = .ok l') (hr : simplify r = .ok r') (hm : rebuild n l' r' = .ok m) :
    m.normalizesExactly = true := by
  have hroot := List.all_eq_true.1 h n (mem_postorder_self n)
  simpa only [hops, hl, hr, ok_bind, hm] using hroot

variable {K : Type*} [Field K] [CharZero K] {I : Interpretation K} {dim : Nat}

/-- Reducing the root keeps literals exact and the meaning of the node. -/
lemma normalize_agrees (hI : I.ExactPowers) (hn : n.WellFormed) (hx : n.exactLiterals = true)
    (hexact : n.normalizesExactly = true) (h : normalize n = .ok m) :
    m.exactLiterals = true ∧ Agrees I dim m n := by
  let P : Expr → Prop := fun k =>
    k.WellFormed ∧ k.normalizesExactly = true ∧ k.exactLiterals = true ∧ Agrees I dim k n
  have step : ∀ k m, P k → reduceRoot k = .ok (some m) → P m := by
    rintro k m ⟨hk, hexact, hx, hagree⟩ hstep
    have hrule := reduceRoot_rewrites hstep
    obtain ⟨hfold, hexact'⟩ := normalizesExactly_step hexact hstep
    exact ⟨(hrule.wellFormed hk).1, hexact', hrule.exactLiterals hx hfold,
      (hrule.agrees hI hk hx hfold).trans hagree⟩
  have hstart : P n := ⟨hn, hexact, hx, .refl n⟩
  rcases normalize_invariant step hstart with ⟨m', hP, hok, -⟩ | ⟨_, f, -, herr, -⟩
  · rw [hok] at h
    cases h
    exact ⟨hP.2.2.1, hP.2.2.2⟩
  · rw [herr] at h
    cases h

/-- Simplification keeps literals exact and the meaning of the expression. -/
theorem simplify_agrees (hI : I.ExactPowers) (he : e.WellFormed) (hmark : e.hasDerivative = false)
    (hx : e.exactLiterals = true) (hfold : e.simplifiesExactly = true)
    (h : simplify e = .ok e') : e'.exactLiterals = true ∧ Agrees I dim e' e := by
  induction e using operandsInduction generalizing e' with
  | leaf n hleaf =>
    rw [simplify_of_leaf hleaf] at h
    cases h
    exact ⟨hx, .refl _⟩
  | node n l r hops ihl ihr =>
    obtain ⟨hl, hr⟩ := wellFormed_operands hops he
    obtain ⟨hlmark, hrmark⟩ := hasDerivative_operands hops hmark
    obtain ⟨hlx, hrx⟩ := exactLiterals_operands hops hx
    obtain ⟨hlfold, hrfold⟩ := simplifiesExactly_operands hops hfold
    rw [simplify_of_operands hops] at h
    obtain ⟨l', hl', h⟩ := bind_eq_ok_iff.1 h
    obtain ⟨r', hr', h⟩ := bind_eq_ok_iff.1 h
    obtain ⟨m, hm, h⟩ := bind_eq_ok_iff.1 h
    obtain ⟨hlx', hlagree⟩ := ihl hl hlmark hlx hlfold hl'
    obtain ⟨hrx', hragree⟩ := ihr hr hrmark hrx hrfold hr'
    have hlwf := (simplified_of_simplify hl hlmark hl').wellFormed
    have hrwf := (simplified_of_simplify hr hrmark hr').wellFormed
    have hexact := simplifiesExactly_root hops hfold hl' hr' hm
    -- The node over the simplified operands agrees with the node, and reducing it keeps the value.
    rcases rebuild_rebuilt hops (kind_ne_derivative hmark) he hlagree.outer_perm
      hragree.outer_perm with ⟨m', hm', hreb⟩ | ⟨-, -, herr⟩
    · rw [hm] at hm'
      cases hm'
      have hmwf := (hreb.wellFormed hops he hlwf hrwf hlagree.outer_perm hragree.outer_perm).1
      obtain ⟨hx', hagree⟩ := normalize_agrees hI hmwf (hreb.exactLiterals hlx' hrx') hexact h
      exact ⟨hx', hagree.trans (hreb.agrees hops he hlwf hlagree hragree)⟩
    · rw [hm] at herr
      cases herr

end Values

/-- Simplification keeps meaning and index structure: it fails only where a denominator becomes a
literal zero or a literal zero is raised to a negative power, and otherwise the result has the free
labels of the expression up to order and, under every interpretation, its values. -/
theorem simplify_preserves {e : Expr} (he : Built e) (hmark : e.hasDerivative = false)
    (hx : e.exactLiterals = true) (hfold : e.simplifiesExactly = true) :
    (∀ f, simplify e = .error f → Vanishes e f) ∧
      ∀ e', simplify e = .ok e' →
        e'.outer.Perm e.outer ∧
          ∀ (K : Type*) [Field K] [CharZero K] (I : Interpretation K), I.ExactPowers →
            ∀ dim ρ, value I dim e' ρ = value I dim e ρ := by
  have hwf := he.wellFormed
  constructor
  · intro f hf
    rcases simplify_simplified hwf hmark with ⟨e', hok, -⟩ | ⟨f', hf', hcause⟩
    · rw [hok] at hf
      cases hf
    · rw [hf'] at hf
      cases hf
      exact hcause
  · intro e' h
    refine ⟨(simplified_of_simplify hwf hmark h).outer_perm, ?_⟩
    intro K _ _ I hI dim ρ
    exact (simplify_agrees hI hwf hmark hx hfold h).2.value_eq ρ

/-- The sum `2 ^ (-1) * (A_ij * v_j) + (--v_j) * A_ij`. -/
def mixedContraction : Expr :=
  let v := tensor ⟨Bytes.ofString "v", 1, 0⟩ [106]
  let A := tensor ⟨Bytes.ofString "A", 2, 1⟩ [105, 106]
  sum (product (power (number (.ofInt 2)) (number (.ofInt (-1)))) (product A v))
    (product (negate (negate v)) A)

/-- The sum is simplified, keeps its free label and keeps its value. -/
theorem simplify_preserves_mixedContraction :
    Built mixedContraction ∧ mixedContraction.hasDerivative = false ∧
      mixedContraction.exactLiterals = true ∧ mixedContraction.simplifiesExactly = true ∧
      ∃ e', simplify mixedContraction = .ok e' ∧ e'.outer.Perm [105] ∧
        ∀ (I : Interpretation Rat), I.ExactPowers →
          ∀ dim ρ, value I dim e' ρ = value I dim mixedContraction ρ := by
  have hbuilt : Built mixedContraction := by
    apply WellFormed.built
    simp [mixedContraction, WellFormed, outer, number, Index.capacity, Index.exclusive,
      Index.symmetricDifference, Index.minus]
  have hfold : mixedContraction.simplifiesExactly = true := by decide +kernel
  have hpres := simplify_preserves hbuilt rfl rfl hfold
  cases h : simplify mixedContraction with
  | error f =>
    have hok : (simplify mixedContraction).isOk = true := by decide +kernel
    rw [h] at hok
    cases hok
  | ok e' =>
    obtain ⟨hperm, hvalue⟩ := hpres.2 e' h
    exact ⟨hbuilt, rfl, rfl, hfold, e', rfl, hperm, fun I hI => hvalue Rat I hI⟩

end Indicial.Expr
