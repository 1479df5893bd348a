import Indicial.Proofs.Expr.Simplify

/-!
# Simplification ends in a normal form

A simplified expression is in normal form, marks for derivatives included. A mark is the one node that
need not be rebuilt as it was: over a mark it extends the direction of the lower one, and the operand
of the mark that results lies inside an operand that is simplified already. Nothing is left to do for
a well-formed expression in normal form, since each of its nodes is rebuilt as it is. So simplifying
twice gives what simplifying once gives (`simplify_idempotent`).
-/

namespace Indicial.Expr

section Rebuild

variable {n m l r l' r' : Expr}

/-- What is rebuilt over well-formed operands in normal form is well formed, and its operands are in
normal form. The operands may have other free labels than those that they replace. -/
lemma rebuild_operandsNormal (hops : n.operands? = some (l, r)) (hl : l'.WellFormed ∧ Normal l')
    (hr : r'.WellFormed ∧ Normal r') (h : rebuild n l' r' = .ok m) :
    m.WellFormed ∧ OperandsNormal m := by
  obtain ⟨hlwf, hlnormal⟩ := hl
  obtain ⟨hrwf, hrnormal⟩ := hr
  cases n with
  | literal => cases hops
  | tensor => cases hops
  | delta => cases hops
  | epsilon => cases hops
  | scalar => cases hops
  | negate =>
    cases h
    exact ⟨hlwf, operandsNormal_of_pair rfl hlnormal hlnormal⟩
  | apply f =>
    obtain ⟨rfl, hrank⟩ := mkApply_eq_ok_iff.1 h
    exact ⟨⟨hlwf, hrank⟩, operandsNormal_of_pair rfl hlnormal hlnormal⟩
  | bind e target =>
    obtain ⟨target', -, h⟩ := bind_eq_ok_iff.1 h
    obtain ⟨rfl, hlen⟩ := mkBind_eq_ok_iff.1 h
    exact ⟨⟨hlwf, hlen⟩, operandsNormal_of_pair rfl hlnormal hlnormal⟩
  | derivative e along =>
    obtain ⟨hne, ⟨inner, first, rfl, rfl, hle⟩ | ⟨hkind, rfl, hle⟩⟩ := mkDerivative_of_ok h
    · -- The two marks are one now, over the operand of the lower one.
      have hinner := (hlnormal.operands.pair rfl).1
      exact ⟨⟨hlwf.1, hlwf.2.1, by simp [hne], hle⟩, operandsNormal_of_pair rfl hinner hinner⟩
    · exact ⟨⟨hlwf, hkind, hne, hle⟩, operandsNormal_of_pair rfl hlnormal hlnormal⟩
  | sum =>
    obtain ⟨rfl, hperm⟩ := mkSum_eq_ok_iff.1 h
    exact ⟨⟨hlwf, hrwf, hperm⟩, operandsNormal_of_pair rfl hlnormal hrnormal⟩
  | difference =>
    obtain ⟨rfl, hperm⟩ := mkDifference_eq_ok_iff.1 h
    exact ⟨⟨hlwf, hrwf, hperm⟩, operandsNormal_of_pair rfl hlnormal hrnormal⟩
  | product =>
    obtain ⟨rfl, hle⟩ := mkProduct_eq_ok_iff.1 h
    exact ⟨⟨hlwf, hrwf, hle⟩, operandsNormal_of_pair rfl hlnormal hrnormal⟩
  | ratio =>
    obtain ⟨rfl, hzero, hle⟩ := mkRatio_eq_ok_iff.1 h
    exact ⟨⟨hlwf, hrwf, hzero, hle⟩, operandsNormal_of_pair rfl hlnormal hrnormal⟩
  | power =>
    obtain ⟨rfl, hbase, hexponent⟩ := mkPower_eq_ok_iff.1 h
    exact ⟨⟨hlwf, hrwf, hbase, hexponent⟩, operandsNormal_of_pair rfl hlnormal hrnormal⟩

/-- A well-formed node is rebuilt over its own operands as it is. -/
lemma rebuild_self (hops : n.operands? = some (l, r)) (hn : n.WellFormed) :
    rebuild n l r = .ok n := by
  cases n with
  | literal => cases hops
  | tensor => cases hops
  | delta => cases hops
  | epsilon => cases hops
  | scalar => cases hops
  | negate =>
    cases hops
    rfl
  | apply f =>
    cases hops
    exact mkApply_eq_ok_iff.2 ⟨rfl, hn.2⟩
  | bind e target =>
    cases hops
    obtain ⟨f, rfl⟩ := exists_relabelling hn.1.nodup_outer hn.2
    rw [rebuild, relabel_map f (.refl _)]
    exact mkBind_eq_ok_iff.2 ⟨rfl, hn.2⟩
  | derivative e along =>
    cases hops
    exact mkDerivative_eq_ok hn.2.1 hn.2.2.1 hn.2.2.2
  | sum =>
    cases hops
    exact mkSum_eq_ok_iff.2 ⟨rfl, hn.2.2⟩
  | difference =>
    cases hops
    exact mkDifference_eq_ok_iff.2 ⟨rfl, hn.2.2⟩
  | product =>
    cases hops
    exact mkProduct_eq_ok_iff.2 ⟨rfl, hn.2.2⟩
  | ratio =>
    cases hops
    exact mkRatio_eq_ok_iff.2 ⟨rfl, hn.2.2⟩
  | power =>
    cases hops
    exact mkPower_eq_ok_iff.2 ⟨rfl, hn.2.2⟩

end Rebuild

section NormalForm

variable {e e' n m : Expr}

/-- Reducing the root of a node over normal operands ends in a normal form. -/
lemma normalize_normal (hn : n.WellFormed) (hops : OperandsNormal n) (h : normalize n = .ok m) :
    m.WellFormed ∧ Normal m := by
  -- A rule applies at the root only, so the operands of what it gives are in normal form again.
  have step : ∀ k m, k.WellFormed ∧ OperandsNormal k → reduceRoot k = .ok (some m) →
      m.WellFormed ∧ OperandsNormal m := by
    rintro k m ⟨hk, hkops⟩ hstep
    have hrule := reduceRoot_rewrites hstep
    exact ⟨(hrule.wellFormed hk).1, (hrule.operandsNormal hkops).1⟩
  rcases normalize_invariant step ⟨hn, hops⟩ with ⟨m', ⟨hwf, hops'⟩, hok, hroot⟩ | ⟨_, f, -, herr, -⟩
  · rw [hok] at h
    cases h
    exact ⟨hwf, normal_iff.2 ⟨hroot, hops'⟩⟩
  · rw [herr] at h
    cases h

/-- Where no rule applies at the root, nothing changes. -/
lemma normalize_of_reduceRoot (h : reduceRoot n = .ok none) : normalize n = .ok n := by
  rw [normalize]
  split <;> simp_all

/-- A simplified expression is well formed and in normal form. -/
theorem simplify_normal (he : e.WellFormed) (h : simplify e = .ok e') :
    e'.WellFormed ∧ Normal e' := by
  induction e using operandsInduction generalizing e' with
  | leaf n hleaf =>
    rw [simplify_of_leaf hleaf] at h
    cases h
    have hroot : reduceRoot n = .ok none := by cases n <;> first | rfl | cases hleaf
    exact ⟨he, normal_iff.2 ⟨hroot, operandsNormal_of_leaf hleaf⟩⟩
  | node n l r hops ihl ihr =>
    obtain ⟨hl, hr⟩ := wellFormed_operands hops he
    rw [simplify_of_operands hops] at h
    obtain ⟨l', hl', h⟩ := bind_eq_ok_iff.1 h
    obtain ⟨r', hr', h⟩ := bind_eq_ok_iff.1 h
    obtain ⟨m, hm, h⟩ := bind_eq_ok_iff.1 h
    obtain ⟨hmwf, hmops⟩ := rebuild_operandsNormal hops (ihl hl hl') (ihr hr hr') hm
    exact normalize_normal hmwf hmops h

/-- Nothing changes where no rule applies. -/
lemma Normal.simplify_eq (h : Normal e) (he : e.WellFormed) : simplify e = .ok e := by
  induction e using operandsInduction with
  | leaf n hleaf => exact simplify_of_leaf hleaf
  | node n l r hops ihl ihr =>
    obtain ⟨hl, hr⟩ := wellFormed_operands hops he
    obtain ⟨hroot, hnormal⟩ := normal_iff.1 h
    obtain ⟨hlnormal, hrnormal⟩ := hnormal.pair hops
    rw [simplify_of_operands hops, ihl hlnormal hl, ihr hrnormal hr, ok_bind, ok_bind,
      rebuild_self hops he, ok_bind]
    exact normalize_of_reduceRoot hroot

/-- Simplification leaves exactly the normal forms as they are. -/
theorem simplify_eq_self_iff (he : e.WellFormed) : simplify e = .ok e ↔ Normal e :=
  ⟨fun h => (simplify_normal he h).2, fun h => h.simplify_eq he⟩

end NormalForm

/-! ### Equality of structure -/

/-- A literal is the same as itself, even if it is no number. -/
lemma literal_same_self (x : Literal) : x.same x = true := by
  cases x with
  | exact q => exact beq_self_eq_true q
  | float x => simp [Literal.same, Binary64.same]

/-- Every expression has its own structure, also over literals that are not numbers. -/
lemma same_self (e : Expr) : e.same e = true := by
  induction e with
  | literal x labels => simp [same, literal_same_self]
  | tensor => simp [same]
  | delta => simp [same]
  | epsilon => simp [same]
  | scalar => simp [same]
  | negate e ih => exact ih
  | apply f e ih => simp [same, ih]
  | bind e target ih => simp [same, ih]
  | derivative e along ih => simp [same, ih]
  | sum l r ihl ihr => simp [same, ihl, ihr]
  | difference l r ihl ihr => simp [same, ihl, ihr]
  | product l r ihl ihr => simp [same, ihl, ihr]
  | ratio l r ihl ihr => simp [same, ihl, ihr]
  | power l r ihl ihr => simp [same, ihl, ihr]

/-- Simplification is idempotent: what it gives is simplified to itself, has its own structure, and no
rule applies at any of its nodes. -/
theorem simplify_idempotent {e s : Expr} (he : Built e) (h : simplify e = .ok s) :
    simplify s = .ok s ∧ s.same s = true ∧ ∀ n ∈ s.postorder, reduceRoot n = .ok none := by
  obtain ⟨hwf, hnormal⟩ := simplify_normal he.wellFormed h
  exact ⟨(simplify_eq_self_iff hwf).2 hnormal, same_self s, hnormal⟩

/-- The product of `sin u` and `∂_j (∂_i ((u * nan) * nan) + 0_i)`. Its coefficients are moved to the
left and merged, and its two marks are joined. -/
def undefinedSlope : Expr :=
  let u := tensor ⟨Bytes.ofString "u", 0, 0⟩ []
  let nan := number (.float .nan)
  product (apply .sin u) (derivative
    (sum (derivative (product (product u nan) nan) [105]) (literal (.ofInt 0) [105])) [106])

/-- The result of simplifying is left alone, although it has a coefficient that is no number. -/
theorem simplify_idempotent_undefinedSlope :
    Built undefinedSlope ∧ ∃ s, simplify undefinedSlope = .ok s ∧ simplify s = .ok s ∧
      s.same s = true ∧ ∀ n ∈ s.postorder, reduceRoot n = .ok none := by
  have hbuilt : Built undefinedSlope := by
    apply WellFormed.built
    simp [undefinedSlope, WellFormed, outer, kind, number, Index.capacity, Index.exclusive,
      Index.symmetricDifference, Index.minus]
  have hrun : ((simplify undefinedSlope).toOption.any fun _ => true) = true := by decide +kernel
  obtain ⟨s, hs, -⟩ := toOption_any_iff.1 hrun
  exact ⟨hbuilt, s, hs, simplify_idempotent hbuilt hs⟩

end Indicial.Expr
