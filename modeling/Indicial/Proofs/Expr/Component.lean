import Indicial.Expr.Component
import Indicial.Proofs.Expr.Simplify
import Indicial.Proofs.Layout
import Indicial.Proofs.Odometer

/-!
# Components

An assignment that gives some labels the numbers of a valuation reads, at a tensor leaf, the scalar of
these numbers (`reference_eq_ok`). `Expr.eval` follows the value of an expression node by node: where
the value sums over labels, `eval` adds up one term for each assignment of them. So the scalar
expression that it finds has the value of the component (`eval_value`), and it is well formed, of rank
zero and free of marks (`eval_isComponent`), whatever the assignment.
-/

namespace Indicial

open Odometer Indicial.Valuation

/-! ### Assignments -/

namespace Valuation

/-- The labels have these numbers from now on; the last of a repeated label counts. -/
def assign : Valuation → Index → List Nat → Valuation
  | ρ, c :: cs, x :: xs => assign (Function.update ρ c x) cs xs
  | ρ, _, _ => ρ

variable {ρ : Valuation} {cs : Index} {ds : List Nat} {c : Label}

/-- Labels that are not assigned keep their numbers. -/
lemma assign_of_not_mem (h : c ∉ cs) : ρ.assign cs ds c = ρ c := by
  induction cs generalizing ρ ds with
  | nil => rfl
  | cons d cs ih =>
    obtain ⟨hne, hcs⟩ : c ≠ d ∧ c ∉ cs := by simpa using h
    cases ds with
    | nil => rfl
    | cons x ds => rw [assign, ih hcs, Function.update_of_ne hne]

/-- Assigned labels have the numbers of the digits. -/
lemma assign_eq_ofDigits (hnodup : cs.Nodup) (hlen : ds.length = cs.length) (h : c ∈ cs) :
    ρ.assign cs ds c = ofDigits cs ds c := by
  induction cs generalizing ρ ds with
  | nil => cases h
  | cons d cs ih =>
    obtain ⟨hd, hcs⟩ := List.nodup_cons.1 hnodup
    cases ds with
    | nil => cases hlen
    | cons x ds =>
      rw [assign]
      by_cases hcd : c = d
      · subst hcd
        rw [assign_of_not_mem hd, Function.update_self]
        simp [ofDigits, Index.position?, List.findIdx?_cons]
      · have hmem : c ∈ cs := by simpa [hcd] using h
        obtain ⟨i, hi, -⟩ := Index.exists_position hmem
        rw [ih hcs (by simpa using hlen) hmem]
        have hcons : Index.position? (d :: cs) c = some (i + 1) := by
          have hne : (d == c) = false := by simpa using Ne.symm hcd
          rw [Index.position?, List.findIdx?_cons, hne]
          rw [Index.position?] at hi
          simp [hi]
        simp [ofDigits, hi, hcons]

/-- A sum over labels runs through their assignments in row-major order. -/
lemma sumLabels_eq_visits {M : Type*} [AddCommMonoid M] {D : Nat} (hD : 0 < D)
    (f : Valuation → M) :
    sumLabels D cs ρ f = ((visits cs.length D).map fun ds => f (ρ.assign cs ds)).sum := by
  induction cs generalizing ρ with
  | nil => simp [visits_zero, assign]
  | cons c cs ih =>
    have hblock : ∀ x, (((visits cs.length D).map (x :: ·)).map fun ds => f (ρ.assign (c :: cs) ds)).sum
        = sumLabels D cs (Function.update ρ c x) f := by
      intro x
      rw [ih, List.map_map]
      rfl
    rw [List.length_cons, visits_succ hD, List.map_flatMap, List.flatMap_def, List.sum_flatten,
      List.map_map, sumLabels_cons]
    simp only [Function.comp_def, hblock]
    rfl

end Valuation

namespace Assignment

/-- The assignment gives the labels the numbers that the valuation does. -/
def Gives (e : Assignment) (labels : Index) (ρ : Valuation) : Prop :=
  ∀ c ∈ labels, e c = some (ρ c)

variable {e : Assignment} {labels cs : Index} {ρ : Valuation} {ds : List Nat} {c : Label}

/-- A label that is given a number has that number. -/
lemma Gives.value (h : e.Gives labels ρ) (hc : c ∈ labels) : e.value c = .ok (ρ c) := by
  rw [Assignment.value, h c hc]

/-- Fewer labels are given their numbers as well. -/
lemma Gives.mono (h : e.Gives labels ρ) (hsub : ∀ c ∈ cs, c ∈ labels) : e.Gives cs ρ :=
  fun c hc => h c (hsub c hc)

/-- Setting labels gives these and the old ones their numbers. -/
lemma Gives.setAll (h : e.Gives labels ρ) (hlen : ds.length = cs.length) :
    (e.setAll cs ds).Gives (cs ++ labels) (ρ.assign cs ds) := by
  induction cs generalizing e labels ρ ds with
  | nil => exact h
  | cons d cs ih =>
    cases ds with
    | nil => cases hlen
    | cons x ds =>
      have hset : (e.set d x).Gives (d :: labels) (Function.update ρ d x) := by
        intro c hc
        by_cases hcd : c = d
        · subst hcd
          simp [Assignment.set]
        · have hmem : c ∈ labels := by simpa [hcd] using hc
          simp [Assignment.set, hcd, h c hmem]
      refine (ih hset (by simpa using hlen)).mono fun c hc => ?_
      simp only [List.cons_append, List.mem_cons, List.mem_append] at hc ⊢
      tauto

/-- The assignment that only knows the digits of some labels. -/
lemma setAll_empty_gives (hnodup : cs.Nodup) (hlen : ds.length = cs.length) :
    (empty.setAll cs ds).Gives cs (Valuation.ofDigits cs ds) := by
  have hnone : empty.Gives [] (fun _ => 0) := by
    intro c hc
    cases hc
  intro c hc
  rw [hnone.setAll hlen c (by simpa using hc), Valuation.assign_eq_ofDigits hnodup hlen hc]

end Assignment

namespace Expr

/-! ### References -/

section References

variable {constant : Constancy} {symbol : Tensor} {labels : Index} {e : Assignment} {ρ : Valuation}

/-- The numbers of the labels are pushed onto the coordinates in order. -/
lemma foldlM_push_eq_ok (hgives : e.Gives labels ρ) (hlt : ∀ c ∈ labels, ρ c < 256) (start : Coord)
    (hlen : start.size + labels.length ≤ Coord.capacity) :
    labels.foldlM (fun (c : Coord) label => do c.push (← e.value label)) start
      = .ok ⟨start.values ++ (labels.map ρ).map Nat.toUInt8⟩ := by
  induction labels generalizing start with
  | nil => simp
  | cons c labels ih =>
    have hentry : Coord.entry (ρ c : Nat) = .ok (ρ c).toUInt8 := by
      have := hlt c (by simp)
      rw [Coord.entry, if_pos (by simp; omega)]
      rfl
    have hpush : start.push (ρ c : Nat) = .ok ⟨start.values ++ [(ρ c).toUInt8]⟩ := by
      rw [Coord.push, if_pos (by simp at hlen; omega), hentry]
      rfl
    rw [List.foldlM_cons, hgives.value (by simp), ok_bind, hpush, ok_bind,
      ih (hgives.mono fun d hd => by simp [hd]) fun d hd => hlt d (by simp [hd])]
    · simp
    · simp only [Coord.size, List.length_append, List.length_cons, List.length_nil] at hlen ⊢
      omega

/-- A leaf reads the scalar of the numbers of its labels. -/
lemma reference_eq_ok (hgives : e.Gives labels ρ) (hlt : ∀ c ∈ labels, ρ c < 256)
    (horder : symbol.order ≤ labels.length) (hcap : labels.length ≤ Index.capacity) :
    reference constant symbol labels e
      = .ok (.ofValues symbol (labels.map ρ) (constant symbol)) := by
  have hcap' : labels.length ≤ Coord.capacity := hcap
  have hcomponent := foldlM_push_eq_ok
    (hgives.mono fun c (hc : c ∈ labels.take symbol.order) => List.mem_of_mem_take hc)
    (fun c hc => hlt c (List.mem_of_mem_take hc)) Coord.empty
    (by simp [Coord.empty, Coord.size]; omega)
  have hderivs := foldlM_push_eq_ok
    (hgives.mono fun c (hc : c ∈ labels.drop symbol.order) => List.mem_of_mem_drop hc)
    (fun c hc => hlt c (List.mem_of_mem_drop hc)) Coord.empty
    (by simp [Coord.empty, Coord.size]; omega)
  rw [reference, hcomponent, ok_bind, hderivs, ok_bind, ScalarRef.make, if_pos]
  · simp [ScalarRef.ofValues, Coord.empty, List.map_take, List.map_drop]
  · simp [Coord.size, Coord.empty, horder]

/-- The odometer visits all digit lists of a length in order. -/
lemma run_ofNat {D : Nat} (hD : 0 < D) (hD' : D < 2 ^ 63) (count : Nat) :
    Odometer.run count (Int64.ofNat D).toInt = .ok (visits count D) := by
  rw [Odometer.run, Int64.toInt_ofNat_of_lt hD', if_pos (by omega), Int.toNat_natCast]

/-- The scalars of a leaf, by the row-major assignments of its distinct labels. -/
lemma leafReferences_eq_ok {D : Nat} (hD : 0 < D) (hD' : D ≤ 256)
    (horder : symbol.order ≤ labels.length) (hcap : labels.length ≤ Index.capacity) :
    leafReferences constant (Int64.ofNat D) (tensor symbol labels)
      = .ok ((List.range (D ^ (Index.unique labels).length)).map fun k =>
        .ofValues symbol
          (labels.map (Valuation.ofDigits (Index.unique labels)
            (digits D (Index.unique labels).length k))) (constant symbol)) := by
  have hterm : ∀ ds ∈ visits (Index.unique labels).length D,
      reference constant symbol labels (Assignment.empty.setAll (Index.unique labels) ds)
        = .ok (.ofValues symbol (labels.map (Valuation.ofDigits (Index.unique labels) ds))
          (constant symbol)) := by
    intro ds hds
    obtain ⟨hlen, hlt⟩ := (mem_visits hD).1 hds
    have hgives := Assignment.setAll_empty_gives (Index.nodup_unique labels) hlen
    apply reference_eq_ok (hgives.mono fun c hc => Index.mem_unique.2 hc) _ horder hcap
    intro c _
    exact Nat.lt_of_lt_of_le (Valuation.ofDigits_lt hD hlt c) hD'
  rw [leafReferences, run_ofNat hD (by omega), ok_bind, mapM_eq_ok_of_forall hterm,
    visits_eq_map hD, List.map_map]
  rfl

end References

/-! ### The shape of a component -/

/-- A well-formed expression of rank zero without marks. -/
structure IsComponent (m : Expr) : Prop where
  wellFormed : m.WellFormed
  outer : m.outer = []
  hasDerivative : m.hasDerivative = false

section Shape

variable {constant : Constancy} {dim : Int64} {n m l r : Expr} {labels : Index} {e : Assignment}

/-- What holds of all terms and is kept by adding holds of their sum. -/
lemma sumOver_induction {P : Expr → Prop} {term : Assignment → Except Fault Expr}
    (h : sumOver dim labels e term = .ok m) (hterm : ∀ e' x, term e' = .ok x → P x)
    (hsum : ∀ a b c, P a → P b → mkSum a b = .ok c → P c) : P m := by
  obtain ⟨visited, -, h⟩ := bind_eq_ok_iff.1 h
  cases visited with
  | nil => cases h
  | cons first rest =>
    obtain ⟨x, hx, h⟩ := bind_eq_ok_iff.1 h
    have hx := hterm _ x hx
    clear * - h hx hterm hsum
    induction rest generalizing x with
    | nil =>
      cases h
      exact hx
    | cons ds rest ih =>
      obtain ⟨total, htotal, h⟩ := bind_eq_ok_iff.1 h
      obtain ⟨y, hy, htotal⟩ := bind_eq_ok_iff.1 htotal
      exact ih total h (hsum x y total hx (hterm _ y hy) htotal)

/-- The operations on scalars keep it, and it holds of numbers. -/
structure ScalarClosed (P : Expr → Prop) : Prop where
  number : ∀ x, P (number x)
  negate : ∀ {a}, P a → P (negate a)
  apply : ∀ {f a}, P a → P (apply f a)
  sum : ∀ {a b}, P a → P b → P (sum a b)
  difference : ∀ {a b}, P a → P b → P (difference a b)
  product : ∀ {a b}, P a → P b → P (product a b)
  ratio : ∀ {a b}, P a → P b → P (ratio a b)
  power : ∀ {a b}, P a → P b → P (power a b)

/-- What scalar operations keep holds of every component when it holds of the scalars that the leaves
read. -/
theorem eval_induction {P Q : Expr → Prop} (closed : ScalarClosed P)
    (operands : ∀ n l r, n.operands? = some (l, r) → Q n → Q l ∧ Q r)
    (tensor : ∀ symbol labels e ref, Q (.tensor symbol labels) →
      reference constant symbol labels e = .ok ref → P (.scalar ref))
    (scalar : ∀ ref, Q (.scalar ref) → P (.scalar ref)) (hn : Q n)
    (h : eval constant dim n e = .ok m) : P m := by
  -- Components of contracted nodes are sums over the values of the contracted labels.
  have hadd : ∀ a b c : Expr, P a → P b → mkSum a b = .ok c → P c := by
    intro a b c ha hb hc
    obtain ⟨rfl, -⟩ := mkSum_eq_ok_iff.1 hc
    exact closed.sum ha hb
  induction n generalizing e m with
  | sum l r ihl ihr =>
    obtain ⟨hl, hr⟩ := operands _ l r rfl hn
    obtain ⟨a, ha, h⟩ := bind_eq_ok_iff.1 h
    obtain ⟨b, hb, h⟩ := bind_eq_ok_iff.1 h
    exact hadd a b m (ihl hl ha) (ihr hr hb) h
  | difference l r ihl ihr =>
    obtain ⟨hl, hr⟩ := operands _ l r rfl hn
    obtain ⟨a, ha, h⟩ := bind_eq_ok_iff.1 h
    obtain ⟨b, hb, h⟩ := bind_eq_ok_iff.1 h
    obtain ⟨rfl, -⟩ := mkDifference_eq_ok_iff.1 h
    exact closed.difference (ihl hl ha) (ihr hr hb)
  | power l r ihl ihr =>
    obtain ⟨hl, hr⟩ := operands _ l r rfl hn
    obtain ⟨a, ha, h⟩ := bind_eq_ok_iff.1 h
    obtain ⟨b, hb, h⟩ := bind_eq_ok_iff.1 h
    obtain ⟨rfl, -⟩ := mkPower_eq_ok_iff.1 h
    exact closed.power (ihl hl ha) (ihr hr hb)
  | negate a ih =>
    obtain ⟨x, hx, h⟩ := bind_eq_ok_iff.1 h
    cases h
    exact closed.negate (ih (operands _ a a rfl hn).1 hx)
  | apply f a ih =>
    obtain ⟨x, hx, h⟩ := bind_eq_ok_iff.1 h
    obtain ⟨rfl, -⟩ := mkApply_eq_ok_iff.1 h
    exact closed.apply (ih (operands _ a a rfl hn).1 hx)
  | product l r ihl ihr =>
    obtain ⟨hl, hr⟩ := operands _ l r rfl hn
    refine sumOver_induction h (fun e' x hx => ?_) hadd
    obtain ⟨a, ha, hx⟩ := bind_eq_ok_iff.1 hx
    obtain ⟨b, hb, hx⟩ := bind_eq_ok_iff.1 hx
    obtain ⟨rfl, -⟩ := mkProduct_eq_ok_iff.1 hx
    exact closed.product (ihl hl ha) (ihr hr hb)
  | ratio l r ihl ihr =>
    obtain ⟨hl, hr⟩ := operands _ l r rfl hn
    refine sumOver_induction h (fun e' x hx => ?_) hadd
    obtain ⟨a, ha, hx⟩ := bind_eq_ok_iff.1 hx
    obtain ⟨b, hb, hx⟩ := bind_eq_ok_iff.1 hx
    obtain ⟨rfl, -⟩ := mkRatio_eq_ok_iff.1 hx
    exact closed.ratio (ihl hl ha) (ihr hr hb)
  | bind a target ih =>
    refine sumOver_induction h (fun e' x hx => ?_) hadd
    obtain ⟨child, -, hx⟩ := bind_eq_ok_iff.1 hx
    exact ih (operands _ a a rfl hn).1 hx
  | tensor symbol labels =>
    refine sumOver_induction h (fun e' x hx => ?_) hadd
    obtain ⟨ref, href, hx⟩ := bind_eq_ok_iff.1 hx
    cases hx
    exact tensor symbol labels e' ref hn href
  | delta labels =>
    refine sumOver_induction h (fun e' x hx => ?_) hadd
    obtain ⟨values, -, hx⟩ := bind_eq_ok_iff.1 hx
    cases hx
    exact closed.number _
  | epsilon labels =>
    obtain ⟨-, h⟩ := guard_eq_ok h
    refine sumOver_induction h (fun e' x hx => ?_) hadd
    obtain ⟨values, -, hx⟩ := bind_eq_ok_iff.1 hx
    cases hx
    exact closed.number _
  | literal x labels =>
    cases h
    exact closed.number x
  | scalar ref =>
    cases h
    exact scalar ref hn
  | derivative a along => cases h

/-- A component, exact where the expression that it comes from is. -/
def IsExactComponent (exact : Bool) (m : Expr) : Prop :=
  IsComponent m ∧ (exact = true → m.exactLiterals = true)

/-- Components add up to a component, exact where both are. -/
lemma IsExactComponent.mkSum {x y z : Bool} (hl : IsExactComponent x l) (hr : IsExactComponent y r)
    (h : mkSum l r = .ok m) (hz : z = true → x = true ∧ y = true) : IsExactComponent z m := by
  obtain ⟨rfl, hperm⟩ := mkSum_eq_ok_iff.1 h
  refine ⟨⟨⟨hl.1.wellFormed, hr.1.wellFormed, hperm⟩, hl.1.outer, ?_⟩, fun hexact => ?_⟩
  · simp [Expr.hasDerivative, hl.1.hasDerivative, hr.1.hasDerivative]
  · simp [exactLiterals, hl.2 (hz hexact).1, hr.2 (hz hexact).2]

/-- The product of components is a component, exact where both are. -/
lemma IsExactComponent.mkProduct {x y z : Bool} (hl : IsExactComponent x l)
    (hr : IsExactComponent y r) (h : mkProduct l r = .ok m)
    (hz : z = true → x = true ∧ y = true) : IsExactComponent z m := by
  obtain ⟨rfl, hle⟩ := mkProduct_eq_ok_iff.1 h
  refine ⟨⟨⟨hl.1.wellFormed, hr.1.wellFormed, hle⟩, ?_, ?_⟩, fun hexact => ?_⟩
  · simp [Expr.outer, hl.1.outer, hr.1.outer]
  · simp [Expr.hasDerivative, hl.1.hasDerivative, hr.1.hasDerivative]
  · simp [exactLiterals, hl.2 (hz hexact).1, hr.2 (hz hexact).2]

/-- The quotient of components is a component, exact where both are. -/
lemma IsExactComponent.mkRatio {x y z : Bool} (hl : IsExactComponent x l)
    (hr : IsExactComponent y r) (h : mkRatio l r = .ok m)
    (hz : z = true → x = true ∧ y = true) : IsExactComponent z m := by
  obtain ⟨rfl, hzero, hle⟩ := mkRatio_eq_ok_iff.1 h
  refine ⟨⟨⟨hl.1.wellFormed, hr.1.wellFormed, hzero, hle⟩, ?_, ?_⟩, fun hexact => ?_⟩
  · simp [Expr.outer, hl.1.outer, hr.1.outer]
  · simp [Expr.hasDerivative, hl.1.hasDerivative, hr.1.hasDerivative]
  · simp [exactLiterals, hl.2 (hz hexact).1, hr.2 (hz hexact).2]

/-- Numbers are components, exact where they are no floats. -/
lemma isExactComponent_number {x : Literal} {exact : Bool} (h : exact = true → x.isFloat = false) :
    IsExactComponent exact (number x) := by
  refine ⟨⟨⟨List.nodup_nil, Nat.zero_le _⟩, rfl, rfl⟩, fun hexact => ?_⟩
  simp [number, exactLiterals, h hexact]

/-- Evaluation gives components, whatever the assignment. -/
theorem eval_isComponent (h : eval constant dim n e = .ok m) :
    IsExactComponent n.exactLiterals m := by
  -- A sum of terms is as exact as the expression that all of them come from.
  have hadd : ∀ {exact : Bool} (a b c : Expr), IsExactComponent exact a → IsExactComponent exact b →
      Expr.mkSum a b = .ok c → IsExactComponent exact c :=
    fun a b c ha hb hc => ha.mkSum hb hc fun hexact => ⟨hexact, hexact⟩
  induction n generalizing e m with
  | sum l r ihl ihr =>
    obtain ⟨a, ha, h⟩ := bind_eq_ok_iff.1 h
    obtain ⟨b, hb, h⟩ := bind_eq_ok_iff.1 h
    exact (ihl ha).mkSum (ihr hb) h (by simp [exactLiterals])
  | difference l r ihl ihr =>
    obtain ⟨a, ha, h⟩ := bind_eq_ok_iff.1 h
    obtain ⟨b, hb, h⟩ := bind_eq_ok_iff.1 h
    obtain ⟨rfl, hperm⟩ := mkDifference_eq_ok_iff.1 h
    have hl := ihl ha
    have hr := ihr hb
    refine ⟨⟨⟨hl.1.wellFormed, hr.1.wellFormed, hperm⟩, hl.1.outer, ?_⟩, fun hexact => ?_⟩
    · simp [hasDerivative, hl.1.hasDerivative, hr.1.hasDerivative]
    · rw [exactLiterals, Bool.and_eq_true] at hexact
      simp [exactLiterals, hl.2 hexact.1, hr.2 hexact.2]
  | power l r ihl ihr =>
    obtain ⟨a, ha, h⟩ := bind_eq_ok_iff.1 h
    obtain ⟨b, hb, h⟩ := bind_eq_ok_iff.1 h
    obtain ⟨rfl, hlrank, hrrank⟩ := mkPower_eq_ok_iff.1 h
    have hl := ihl ha
    have hr := ihr hb
    refine ⟨⟨⟨hl.1.wellFormed, hr.1.wellFormed, hlrank, hrrank⟩, rfl, ?_⟩, fun hexact => ?_⟩
    · simp [hasDerivative, hl.1.hasDerivative, hr.1.hasDerivative]
    · rw [exactLiterals, Bool.and_eq_true] at hexact
      simp [exactLiterals, hl.2 hexact.1, hr.2 hexact.2]
  | negate a ih =>
    obtain ⟨x, hx, h⟩ := bind_eq_ok_iff.1 h
    cases h
    have ha := ih hx
    exact ⟨⟨ha.1.wellFormed, ha.1.outer, ha.1.hasDerivative⟩, ha.2⟩
  | apply f a ih =>
    obtain ⟨x, hx, h⟩ := bind_eq_ok_iff.1 h
    obtain ⟨rfl, hrank⟩ := mkApply_eq_ok_iff.1 h
    have ha := ih hx
    exact ⟨⟨⟨ha.1.wellFormed, hrank⟩, rfl, ha.1.hasDerivative⟩, ha.2⟩
  | product l r ihl ihr =>
    refine sumOver_induction h (fun e' x hx => ?_) hadd
    obtain ⟨a, ha, hx⟩ := bind_eq_ok_iff.1 hx
    obtain ⟨b, hb, hx⟩ := bind_eq_ok_iff.1 hx
    exact (ihl ha).mkProduct (ihr hb) hx (by simp [exactLiterals])
  | ratio l r ihl ihr =>
    refine sumOver_induction h (fun e' x hx => ?_) hadd
    obtain ⟨a, ha, hx⟩ := bind_eq_ok_iff.1 hx
    obtain ⟨b, hb, hx⟩ := bind_eq_ok_iff.1 hx
    exact (ihl ha).mkRatio (ihr hb) hx (by simp [exactLiterals])
  | bind a target ih =>
    refine sumOver_induction h (fun e' x hx => ?_) hadd
    obtain ⟨child, -, hx⟩ := bind_eq_ok_iff.1 hx
    exact ih hx
  | tensor symbol labels =>
    refine sumOver_induction h (fun e' x hx => ?_) hadd
    obtain ⟨ref, -, hx⟩ := bind_eq_ok_iff.1 hx
    cases hx
    exact ⟨⟨trivial, rfl, rfl⟩, fun _ => rfl⟩
  | delta labels =>
    refine sumOver_induction h (fun e' x hx => ?_) hadd
    obtain ⟨values, -, hx⟩ := bind_eq_ok_iff.1 hx
    cases hx
    exact isExactComponent_number fun _ => rfl
  | epsilon labels =>
    obtain ⟨-, h⟩ := guard_eq_ok h
    refine sumOver_induction h (fun e' x hx => ?_) hadd
    obtain ⟨values, -, hx⟩ := bind_eq_ok_iff.1 hx
    cases hx
    exact isExactComponent_number fun _ => rfl
  | literal x labels =>
    cases h
    exact isExactComponent_number fun hexact => by simpa [exactLiterals] using hexact
  | scalar ref =>
    cases h
    exact ⟨⟨trivial, rfl, rfl⟩, fun _ => rfl⟩
  | derivative a along => cases h

end Shape

/-! ### The value of a component -/

section Value

variable {K : Type*} [Field K] {I : Interpretation K} {constant : Constancy} {D : Nat} {n m : Expr}
  {labels : Index} {e : Assignment} {ρ : Valuation}

/-- A sum of terms that have the values of a function. -/
lemma sumOver_value {f : Valuation → K} {term : Assignment → Except Fault Expr} (hD : 0 < D)
    (hD' : D < 2 ^ 63) (h : sumOver (Int64.ofNat D) labels e term = .ok m)
    (hterm : ∀ ds ∈ visits labels.length D, ∀ x, term (e.setAll labels ds) = .ok x →
      ∀ ρ', value I D x ρ' = f (ρ.assign labels ds)) (ρ' : Valuation) :
    value I D m ρ' = sumLabels D labels ρ f := by
  rw [sumOver, run_ofNat hD hD', ok_bind] at h
  rw [sumLabels_eq_visits hD]
  cases hvisits : visits labels.length D with
  | nil =>
    rw [hvisits] at h
    cases h
  | cons first rest =>
    rw [hvisits] at h hterm
    obtain ⟨x, hx, hfold⟩ := bind_eq_ok_iff.1 h
    rw [List.map_cons, List.sum_cons, ← hterm first (by simp) x hx ρ']
    replace hterm := fun ds hds => hterm ds (List.mem_cons_of_mem first hds)
    clear h hx hvisits
    induction rest generalizing x with
    | nil =>
      cases hfold
      simp
    | cons ds rest ih =>
      obtain ⟨total, htotal, hfold⟩ := bind_eq_ok_iff.1 hfold
      obtain ⟨y, hy, htotal⟩ := bind_eq_ok_iff.1 htotal
      obtain ⟨rfl, -⟩ := mkSum_eq_ok_iff.1 htotal
      rw [ih _ hfold fun ds hds => hterm ds (List.mem_cons_of_mem _ hds), value_sum,
        hterm ds (by simp) y hy ρ', List.map_cons, List.sum_cons, add_assoc]

/-- The operand of a relabelling has the numbers of the targets. -/
lemma throughBind_gives {source target : Index} (hlen : target.length = source.length)
    (hgives : e.Gives target ρ) {child child' : Assignment} (hnodup : source.Nodup)
    (h : throughBind e source target child = .ok child') :
    (∀ c, c ∉ source → child' c = child c) ∧ child'.Gives source (carry source target ρ) := by
  induction source generalizing target child with
  | nil =>
    obtain rfl := List.length_eq_zero_iff.1 hlen
    cases h
    exact ⟨fun _ _ => rfl, nofun⟩
  | cons c source ih =>
    cases target with
    | nil => cases hlen
    | cons d target =>
      obtain ⟨hc, hnodup⟩ := List.nodup_cons.1 hnodup
      obtain ⟨x, hx, h⟩ := bind_eq_ok_iff.1 h
      rw [hgives.value (by simp)] at hx
      cases hx
      obtain ⟨hout, hin⟩ := ih (by simpa using hlen) (hgives.mono fun c hc => by simp [hc]) hnodup h
      refine ⟨fun b hb => ?_, fun b hb => ?_⟩
      · obtain ⟨hne, hb⟩ : b ≠ c ∧ b ∉ source := by simpa using hb
        rw [hout b hb, Assignment.set, if_neg (by simpa using hne)]
      · by_cases hbc : b = c
        · subst hbc
          rw [hout b hc, Assignment.set, if_pos (by simp), carry, Function.update_self]
        · rw [hin b (by simpa [hbc] using hb), carry, Function.update_of_ne hbc]

/-- Giving more labels numbers below the dimension. -/
lemma setAll_gives_lt {cs : Index} {ds : List Nat} (hD : 0 < D) (hnodup : cs.Nodup)
    (hgives : e.Gives labels ρ) (hlt : ∀ c ∈ labels, ρ c < D) (hds : ds ∈ visits cs.length D) :
    (e.setAll cs ds).Gives (cs ++ labels) (ρ.assign cs ds) ∧
      ∀ c ∈ cs ++ labels, ρ.assign cs ds c < D := by
  obtain ⟨hlen, hbound⟩ := (mem_visits hD).1 hds
  refine ⟨hgives.setAll hlen, fun c hc => ?_⟩
  by_cases hmem : c ∈ cs
  · rw [assign_eq_ofDigits hnodup hlen hmem]
    exact ofDigits_lt hD hbound c
  · rw [assign_of_not_mem hmem]
    exact hlt c (by simpa [hmem] using hc)

/-- Labels of a leaf or relabelling are free or summed. -/
lemma mem_repeated_append {c : Label} (hc : c ∈ labels) :
    c ∈ Index.repeated labels ++ Index.exclusive labels := by
  rw [List.mem_append, Index.mem_repeated, Index.mem_exclusive]
  have := List.count_pos_iff.2 hc
  omega

/-- A leaf or relabelling sums over the labels that it repeats. -/
lemma sumOver_repeated_value {term : Assignment → Except Fault Expr} {f : Valuation → K}
    (hD : 0 < D) (hD' : D < 2 ^ 63) (hgives : e.Gives (Index.exclusive labels) ρ)
    (hlt : ∀ c ∈ Index.exclusive labels, ρ c < D)
    (h : sumOver (Int64.ofNat D) (Index.repeated labels) e term = .ok m)
    (hterm : ∀ e' τ x, e'.Gives labels τ → (∀ c ∈ labels, τ c < D) → term e' = .ok x →
      ∀ ρ', value I D x ρ' = f τ) (ρ' : Valuation) :
    value I D m ρ' = sumLabels D (Index.repeated labels) ρ f := by
  refine sumOver_value hD hD' h (fun ds hds x hx => ?_) ρ'
  obtain ⟨hgives', hlt'⟩ := setAll_gives_lt hD (Index.nodup_repeated labels) hgives hlt hds
  exact hterm _ _ x (hgives'.mono fun c hc => mem_repeated_append hc)
    (fun c hc => hlt' c (mem_repeated_append hc)) hx

/-- A product or ratio sums over the labels that its operands share. -/
lemma sumOver_shared_value {l r : Expr} {term : Assignment → Except Fault Expr} {f : Valuation → K}
    (hD : 0 < D) (hD' : D < 2 ^ 63)
    (hgives : e.Gives (Index.symmetricDifference l.outer r.outer) ρ)
    (hlt : ∀ c ∈ Index.symmetricDifference l.outer r.outer, ρ c < D)
    (h : sumOver (Int64.ofNat D) (Index.intersect l.outer r.outer) e term = .ok m)
    (hterm : ∀ e' τ x, e'.Gives (l.outer ++ r.outer) τ → (∀ c ∈ l.outer ++ r.outer, τ c < D) →
      term e' = .ok x → ∀ ρ', value I D x ρ' = f τ) (ρ' : Valuation) :
    value I D m ρ' = sumLabels D (Index.intersect l.outer r.outer) ρ f := by
  have hmem : ∀ c ∈ l.outer ++ r.outer, c ∈ Index.intersect l.outer r.outer
      ++ Index.symmetricDifference l.outer r.outer := by
    intro c hc
    rw [List.mem_append] at hc
    rw [List.mem_append, Index.mem_intersect, Index.mem_symmetricDifference]
    tauto
  refine sumOver_value hD hD' h (fun ds hds x hx => ?_) ρ'
  obtain ⟨hgives', hlt'⟩ := setAll_gives_lt hD (Index.nodup_intersect _ _) hgives hlt hds
  exact hterm _ _ x (hgives'.mono hmem) (fun c hc => hlt' c (hmem c hc)) hx

/-- The numbers of all labels are found. -/
lemma mapM_value_eq_ok {τ : Valuation} (hgives : e.Gives labels τ) :
    labels.mapM e.value = .ok (labels.map τ) :=
  mapM_eq_ok_of_forall fun _ hc => hgives.value hc

/-- The scalar expression of a component has the value of the component. -/
theorem eval_value (hD : 0 < D) (hD' : D ≤ 256) (hreads : I.ReadsScalars constant)
    (hn : n.WellFormed) (hgives : e.Gives n.outer ρ) (hlt : ∀ c ∈ n.outer, ρ c < D)
    (h : eval constant (Int64.ofNat D) n e = .ok m) (ρ' : Valuation) :
    value I D m ρ' = value I D n ρ := by
  have hword : D < 2 ^ 63 := by omega
  -- The scalar `m` has no free label, so its value is the same under every `ρ'`; the digits of the
  -- component sit in the bindings `e` that `ρ` agrees with.
  induction n generalizing e ρ m ρ' with
  | literal x labels =>
    cases h
    rfl
  | scalar ref =>
    cases h
    rfl
  | tensor symbol labels =>
    obtain ⟨horder, hcap⟩ := hn
    refine sumOver_repeated_value hD hword hgives hlt h (fun e' τ x hgives' hlt' hx ρ' => ?_) ρ'
    rw [reference_eq_ok hgives' (fun c hc => Nat.lt_of_lt_of_le (hlt' c hc) hD') horder hcap] at hx
    cases hx
    exact (hreads symbol _).symm
  | delta labels =>
    refine sumOver_repeated_value hD hword hgives hlt h (fun e' τ x hgives' _ hx ρ' => ?_) ρ'
    rw [mapM_value_eq_ok hgives'] at hx
    cases hx
    obtain ⟨a, b, rfl⟩ := List.length_eq_two.1 hn
    by_cases hab : τ a = τ b
    · simp [number, value, Interpretation.literal, Literal.ofInt, kronecker, hab,
        List.eraseDups_cons]
    · simp [number, value, Interpretation.literal, Literal.ofInt, kronecker, hab, Ne.symm hab,
        List.eraseDups_cons]
  | epsilon labels =>
    obtain ⟨-, h⟩ := guard_eq_ok h
    refine sumOver_repeated_value hD hword hgives hlt h (fun e' τ x hgives' _ hx ρ' => ?_) ρ'
    rw [mapM_value_eq_ok hgives'] at hx
    cases hx
    simp [number, value, Interpretation.literal, Literal.ofInt, leviCivita]
  | negate a ih =>
    obtain ⟨x, hx, h⟩ := bind_eq_ok_iff.1 h
    cases h
    rw [value_negate, value_negate, ih hn hgives hlt hx]
  | apply f a ih =>
    obtain ⟨x, hx, h⟩ := bind_eq_ok_iff.1 h
    obtain ⟨rfl, -⟩ := mkApply_eq_ok_iff.1 h
    -- A function applies to a scalar, for which any bindings will do.
    have hempty : ∀ c, c ∉ a.outer := by simp [hn.2]
    rw [value_apply, value_apply, ih hn.1 (fun c hc => absurd hc (hempty c))
      (fun c hc => absurd hc (hempty c)) hx]
  | bind a target ih =>
    refine sumOver_repeated_value hD hword hgives hlt h (fun e' τ x hgives' hlt' hx ρ' => ?_) ρ'
    obtain ⟨child, hchild, hx⟩ := bind_eq_ok_iff.1 hx
    -- The labels of the operand take the digits of the labels that they are bound to.
    obtain ⟨-, hcarried⟩ := throughBind_gives hn.2 hgives' hn.1.nodup_outer hchild
    refine ih hn.1 hcarried (fun c hc => ?_) hx ρ'
    obtain ⟨f, rfl⟩ := exists_relabelling hn.1.nodup_outer hn.2
    rw [carry_map f τ hc]
    exact hlt' (f c) (List.mem_map_of_mem hc)
  | derivative a along => cases h
  | sum l r ihl ihr =>
    obtain ⟨hl, hr, hperm⟩ := hn
    obtain ⟨x, hx, h⟩ := bind_eq_ok_iff.1 h
    obtain ⟨y, hy, h⟩ := bind_eq_ok_iff.1 h
    obtain ⟨rfl, -⟩ := mkSum_eq_ok_iff.1 h
    rw [value_sum, value_sum, ihl hl hgives hlt hx,
      ihr hr (hgives.mono fun c hc => hperm.mem_iff.2 hc) (fun c hc => hlt c (hperm.mem_iff.2 hc)) hy]
  | difference l r ihl ihr =>
    obtain ⟨hl, hr, hperm⟩ := hn
    obtain ⟨x, hx, h⟩ := bind_eq_ok_iff.1 h
    obtain ⟨y, hy, h⟩ := bind_eq_ok_iff.1 h
    obtain ⟨rfl, -⟩ := mkDifference_eq_ok_iff.1 h
    rw [value_difference, value_difference, ihl hl hgives hlt hx,
      ihr hr (hgives.mono fun c hc => hperm.mem_iff.2 hc) (fun c hc => hlt c (hperm.mem_iff.2 hc)) hy]
  | product l r ihl ihr =>
    refine sumOver_shared_value hD hword hgives hlt h (fun e' τ x hgives' hlt' hx ρ' => ?_) ρ'
    obtain ⟨a, ha, hx⟩ := bind_eq_ok_iff.1 hx
    obtain ⟨b, hb, hx⟩ := bind_eq_ok_iff.1 hx
    have hrank := (eval_isComponent ha).1.outer
    obtain ⟨rfl, -⟩ := mkProduct_eq_ok_iff.1 hx
    rw [value_product_of_rank_zero hrank,
      ihl hn.1 (hgives'.mono fun c hc => List.mem_append_left _ hc)
        (fun c hc => hlt' c (List.mem_append_left _ hc)) ha,
      ihr hn.2.1 (hgives'.mono fun c hc => List.mem_append_right _ hc)
        (fun c hc => hlt' c (List.mem_append_right _ hc)) hb]
  | ratio l r ihl ihr =>
    refine sumOver_shared_value hD hword hgives hlt h (fun e' τ x hgives' hlt' hx ρ' => ?_) ρ'
    obtain ⟨a, ha, hx⟩ := bind_eq_ok_iff.1 hx
    obtain ⟨b, hb, hx⟩ := bind_eq_ok_iff.1 hx
    have hrank := (eval_isComponent ha).1.outer
    obtain ⟨rfl, -⟩ := mkRatio_eq_ok_iff.1 hx
    rw [value, hrank, Index.nil_intersect, sumLabels_nil,
      ihl hn.1 (hgives'.mono fun c hc => List.mem_append_left _ hc)
        (fun c hc => hlt' c (List.mem_append_left _ hc)) ha,
      ihr hn.2.1 (hgives'.mono fun c hc => List.mem_append_right _ hc)
        (fun c hc => hlt' c (List.mem_append_right _ hc)) hb]
  | power l r ihl ihr =>
    obtain ⟨hl, hr, hlrank, hrrank⟩ := hn
    obtain ⟨x, hx, h⟩ := bind_eq_ok_iff.1 h
    obtain ⟨y, hy, h⟩ := bind_eq_ok_iff.1 h
    obtain ⟨rfl, -⟩ := mkPower_eq_ok_iff.1 h
    have hlempty : ∀ c, c ∉ l.outer := by simp [hlrank]
    have hrempty : ∀ c, c ∉ r.outer := by simp [hrrank]
    rw [value, value, ihl hl (fun c hc => absurd hc (hlempty c))
      (fun c hc => absurd hc (hlempty c)) hx, ihr hr (fun c hc => absurd hc (hrempty c))
      (fun c hc => absurd hc (hrempty c)) hy]

end Value

/-! ### All components -/

/-- A simplified component is a well-formed scalar without marks. -/
lemma part_shape {constant : Constancy} {dim : Int64} {n part : Expr} {e : Assignment}
    (h : ∃ m, eval constant dim n e = .ok m ∧ m.simplify = .ok part) :
    part.WellFormed ∧ part.hasDerivative = false ∧ part.outer = [] := by
  obtain ⟨m, hm, hsimplify⟩ := h
  have hcomponent := (eval_isComponent hm).1
  have hsimplified := simplified_of_simplify hcomponent.wellFormed hcomponent.hasDerivative hsimplify
  have hperm := hsimplified.outer_perm
  rw [hcomponent.outer] at hperm
  exact ⟨hsimplified.wellFormed, hsimplified.hasDerivative, hperm.eq_nil⟩

/-- A component that is simplified exactly has the value of the expression under the digits that it was
found for. -/
lemma part_value {K : Type} [ExactNumbers K] {I : Interpretation K} {constant : Constancy} {D k : Nat}
    {n m part : Expr} {labels : Index} (hI : I.ExactPowers) (hreads : I.ReadsScalars constant)
    (hD : 0 < D) (hD' : D ≤ 256) (hn : n.WellFormed) (hx : n.exactLiterals = true)
    (hperm : labels.Perm n.outer) (hk : k < D ^ labels.length)
    (hm : eval constant (Int64.ofNat D) n
      (Assignment.empty.setAll labels (digits D labels.length k)) = .ok m)
    (hfold : m.simplifiesExactly = true) (hsimplify : m.simplify = .ok part) (ρ : Valuation) :
    part.value I D ρ = n.value I D (ofDigits labels (digits D labels.length k)) := by
  obtain ⟨hcomponent, hexact⟩ := eval_isComponent hm
  have hagrees : Agrees I D part m := (simplify_agrees hI hcomponent.wellFormed
    hcomponent.hasDerivative (hexact hx) hfold hsimplify).2
  have hnodup : labels.Nodup := hperm.nodup_iff.2 hn.nodup_outer
  have hgives := Assignment.setAll_empty_gives hnodup (length_digits D labels.length k)
  have hlt : ∀ c, ofDigits labels (digits D labels.length k) c < D := ofDigits_lt hD (digits_lt hk)
  calc part.value I D ρ = m.value I D ρ := hagrees.value_eq ρ
    _ = n.value I D (ofDigits labels (digits D labels.length k)) :=
      eval_value hD hD' hreads hn (hgives.mono fun c hc => hperm.mem_iff.2 hc) (fun c _ => hlt c) hm ρ

/-- There is one part for each assignment of the labels, a simplified component. -/
lemma components_eq_ok {constant : Constancy} {D : Nat} {n : Expr} {labels : Index} {parts : List Expr}
    (hD : 0 < D) (hD' : D < 2 ^ 63) (h : components constant (Int64.ofNat D) n labels = .ok parts) :
    labels.Perm n.outer ∧
      List.Forall₂ (fun ds part => ∃ m, eval constant (Int64.ofNat D) n
          (Assignment.empty.setAll labels ds) = .ok m ∧ m.simplify = .ok part)
        (visits labels.length D) parts := by
  obtain ⟨hperm, h⟩ := guard_eq_ok h
  rw [run_ofNat hD hD', ok_bind] at h
  rw [Bool.not_eq_true', Bool.not_eq_false, Index.isPermutation_iff] at hperm
  exact ⟨hperm, (mapM_eq_ok_iff.1 h).imp fun ds part hpart => bind_eq_ok_iff.1 hpart⟩

end Expr

end Indicial
