import Indicial.Proofs.Expr.Calculus

/-!
# Expanding marks

`expand` replaces every mark for a derivative by the derivative that it stands for. Its result is well
formed and has no marks (`expand_wellFormed`). Under a calculus, when no label occurs three times at a
mark, it agrees with the expression (`expand_agrees`): each label in turn extends the mark by one
(`agrees_derivative_snoc`), and what is left after the last label is the whole mark.
-/

namespace Indicial

namespace Expr

open Indicial.Valuation

section Structure

variable {constant : Constancy} {e e' m : Expr} {k : Label} {along : Index}

/-- One derivative of an expression without marks. -/
lemma differentiate_derived {atMark : Expr → Index → Label → Except Fault Expr}
    (he : e.WellFormed) (hmark : e.hasDerivative = false)
    (h : differentiate constant atMark e k = .ok m) : Derived e k m :=
  (differentiate_derives hmark h).derived he hmark

/-- Derivatives along several labels leave no marks. -/
lemma differentiatePlain_wellFormed (he : e.WellFormed) (hmark : e.hasDerivative = false)
    (h : differentiatePlain constant e along = .ok m) :
    m.WellFormed ∧ m.hasDerivative = false := by
  unfold differentiatePlain at h
  induction along generalizing e with
  | nil =>
    cases h
    exact ⟨he, hmark⟩
  | cons k rest ih =>
    rw [List.foldlM_cons] at h
    obtain ⟨d, hd, h⟩ := bind_eq_ok_iff.1 h
    have hderived := differentiate_derived he hmark hd
    exact ih hderived.wellFormed hderived.hasDerivative h

/-- Expanding gives a well-formed expression without marks. -/
theorem expand_wellFormed (he : e.WellFormed) (h : expand constant e = .ok e') :
    e'.WellFormed ∧ e'.hasDerivative = false := by
  induction e generalizing e' with
  | literal =>
    cases h
    exact ⟨he, rfl⟩
  | tensor =>
    cases h
    exact ⟨he, rfl⟩
  | delta =>
    cases h
    exact ⟨he, rfl⟩
  | epsilon =>
    cases h
    exact ⟨he, rfl⟩
  | scalar =>
    cases h
    exact ⟨he, rfl⟩
  | negate e ih =>
    obtain ⟨d, hd, h⟩ := bind_eq_ok_iff.1 h
    cases h
    exact ⟨(ih he hd).1, (ih he hd).2⟩
  | apply f e ih =>
    obtain ⟨d, hd, h⟩ := bind_eq_ok_iff.1 h
    obtain ⟨rfl, hrank⟩ := mkApply_eq_ok_iff.1 h
    exact ⟨⟨(ih he.1 hd).1, hrank⟩, (ih he.1 hd).2⟩
  | bind e target ih =>
    obtain ⟨d, hd, h⟩ := bind_eq_ok_iff.1 h
    obtain ⟨labels, -, h⟩ := bind_eq_ok_iff.1 h
    obtain ⟨rfl, hlen⟩ := mkBind_eq_ok_iff.1 h
    exact ⟨⟨(ih he.1 hd).1, hlen⟩, (ih he.1 hd).2⟩
  | derivative e along ih =>
    obtain ⟨d, hd, h⟩ := bind_eq_ok_iff.1 h
    exact differentiatePlain_wellFormed (ih he.1 hd).1 (ih he.1 hd).2 h
  | sum l r ihl ihr =>
    obtain ⟨dl, hdl, h⟩ := bind_eq_ok_iff.1 h
    obtain ⟨dr, hdr, h⟩ := bind_eq_ok_iff.1 h
    obtain ⟨rfl, hperm⟩ := mkSum_eq_ok_iff.1 h
    obtain ⟨hl, hlmark⟩ := ihl he.1 hdl
    obtain ⟨hr, hrmark⟩ := ihr he.2.1 hdr
    exact ⟨⟨hl, hr, hperm⟩, by simp [hasDerivative, hlmark, hrmark]⟩
  | difference l r ihl ihr =>
    obtain ⟨dl, hdl, h⟩ := bind_eq_ok_iff.1 h
    obtain ⟨dr, hdr, h⟩ := bind_eq_ok_iff.1 h
    obtain ⟨rfl, hperm⟩ := mkDifference_eq_ok_iff.1 h
    obtain ⟨hl, hlmark⟩ := ihl he.1 hdl
    obtain ⟨hr, hrmark⟩ := ihr he.2.1 hdr
    exact ⟨⟨hl, hr, hperm⟩, by simp [hasDerivative, hlmark, hrmark]⟩
  | product l r ihl ihr =>
    obtain ⟨dl, hdl, h⟩ := bind_eq_ok_iff.1 h
    obtain ⟨dr, hdr, h⟩ := bind_eq_ok_iff.1 h
    obtain ⟨rfl, hle⟩ := mkProduct_eq_ok_iff.1 h
    obtain ⟨hl, hlmark⟩ := ihl he.1 hdl
    obtain ⟨hr, hrmark⟩ := ihr he.2.1 hdr
    exact ⟨⟨hl, hr, hle⟩, by simp [hasDerivative, hlmark, hrmark]⟩
  | ratio l r ihl ihr =>
    obtain ⟨dl, hdl, h⟩ := bind_eq_ok_iff.1 h
    obtain ⟨dr, hdr, h⟩ := bind_eq_ok_iff.1 h
    obtain ⟨rfl, hzero, hle⟩ := mkRatio_eq_ok_iff.1 h
    obtain ⟨hl, hlmark⟩ := ihl he.1 hdl
    obtain ⟨hr, hrmark⟩ := ihr he.2.1 hdr
    exact ⟨⟨hl, hr, hzero, hle⟩, by simp [hasDerivative, hlmark, hrmark]⟩
  | power l r ihl ihr =>
    obtain ⟨dl, hdl, h⟩ := bind_eq_ok_iff.1 h
    obtain ⟨dr, hdr, h⟩ := bind_eq_ok_iff.1 h
    obtain ⟨rfl, hbase, hexponent⟩ := mkPower_eq_ok_iff.1 h
    obtain ⟨hl, hlmark⟩ := ihl he.1 hdl
    obtain ⟨hr, hrmark⟩ := ihr he.2.1 hdr
    exact ⟨⟨hl, hr, hbase, hexponent⟩, by simp [hasDerivative, hlmark, hrmark]⟩

end Structure

section Agreement

variable {K : Type*} [Field K] {I : Interpretation K} {dim : Nat} {constant : Constancy}
  {F : Func → Bool} {D : Nat → Derivation ℤ K K} {e e' m : Expr} {k : Label} {along pre : Index}

/-- A mark without labels stands for its operand. -/
lemma agrees_derivative_nil (he : e.WellFormed) : Agrees I dim e (derivative e []) := by
  refine ⟨?_, fun ρ => ?_⟩
  · simp only [outer, List.append_nil]
    rw [Index.exclusive_eq_self he.nodup_outer]
  · simp only [value, List.append_nil, List.foldl_nil]
    rw [Index.repeated_eq_nil_iff.2 he.nodup_outer, sumLabels_nil]

/-- The derivative of what a mark stands for is what the mark with one more label stands for, unless
the label is already summed at the mark. -/
lemma agrees_derivative_snoc (hC : I.Calculus constant F D)
    (hk : k ∉ Index.repeated (e.outer ++ pre)) (h : Agrees I dim m (derivative e pre)) :
    Agrees I dim (derivative m [k]) (derivative e (pre ++ [k])) := by
  refine (h.derivative [k]).trans ⟨?_, fun ρ => ?_⟩
  · simp only [outer]
    rw [← List.append_assoc]
    exact exclusive_exclusive_append hk
  · rw [value_derivative_singleton hC]
    simp only [value, outer]
    rw [sumLabels_derivation hk, ← sumLabels_perm (repeated_append_singleton_perm hk),
      ← List.append_assoc]
    simp only [List.foldl_append, List.foldl_cons, List.foldl_nil, hC.derive_eq]

variable [CharZero K]

/-- Derivatives along the labels of a mark, one after the other. -/
lemma differentiatePlain_agrees (hC : I.Calculus constant F D) (hm : m.WellFormed)
    (hmark : m.hasDerivative = false) (hcalc : m.calculable F = true)
    (hcount : ∀ c, (e.outer ++ (pre ++ along)).count c ≤ 2)
    (hagree : Agrees I dim m (derivative e pre))
    (h : differentiatePlain constant m along = .ok e') :
    e'.calculable F = true ∧ Agrees I dim e' (derivative e (pre ++ along)) := by
  unfold differentiatePlain at h
  -- The invariant: after the labels `pre`, the expression agrees with the mark along them.
  induction along generalizing m pre with
  | nil =>
    cases h
    rw [List.append_nil]
    exact ⟨hcalc, hagree⟩
  | cons k rest ih =>
    rw [List.foldlM_cons] at h
    obtain ⟨d, hd, h⟩ := bind_eq_ok_iff.1 h
    have hrule := differentiate_derives hmark hd
    have hderived := hrule.derived hm hmark
    have hk : k ∉ Index.repeated (e.outer ++ pre) := by
      have hle := hcount k
      simp only [List.count_append, List.count_cons_self] at hle
      rw [Index.mem_repeated, List.count_append]
      omega
    have hstep : Agrees I dim d (derivative m [k]) :=
      ⟨hderived.outer_perm, hrule.value_eq hC hm hmark hcalc⟩
    have hnext : e'.calculable F = true ∧ Agrees I dim e' (derivative e ((pre ++ [k]) ++ rest)) :=
      ih hderived.wellFormed hderived.hasDerivative (hrule.calculable hC.companion hcalc)
        (by simpa using hcount) (hstep.trans (agrees_derivative_snoc hC hk hagree)) h
    simpa using hnext

/-- Expanding keeps the meaning of an expression in which no label occurs three times at a mark. -/
theorem expand_agrees (hC : I.Calculus constant F D) (he : e.WellFormed)
    (hcalc : e.calculable F = true) (h : expand constant e = .ok e') :
    e'.calculable F = true ∧ Agrees I dim e' e := by
  induction e generalizing e' with
  | literal =>
    cases h
    exact ⟨hcalc, .refl _⟩
  | tensor =>
    cases h
    exact ⟨hcalc, .refl _⟩
  | delta =>
    cases h
    exact ⟨hcalc, .refl _⟩
  | epsilon =>
    cases h
    exact ⟨hcalc, .refl _⟩
  | scalar =>
    cases h
    exact ⟨hcalc, .refl _⟩
  | negate e ih =>
    obtain ⟨d, hd, h⟩ := bind_eq_ok_iff.1 h
    cases h
    obtain ⟨hdcalc, hagree⟩ := ih he hcalc hd
    exact ⟨hdcalc, hagree.negate⟩
  | apply f e ih =>
    rw [calculable, Bool.and_eq_true] at hcalc
    obtain ⟨d, hd, h⟩ := bind_eq_ok_iff.1 h
    obtain ⟨rfl, -⟩ := mkApply_eq_ok_iff.1 h
    obtain ⟨hdcalc, hagree⟩ := ih he.1 hcalc.2 hd
    exact ⟨by simp [calculable, hcalc.1, hdcalc], hagree.apply f⟩
  | bind e target ih =>
    obtain ⟨d, hd, h⟩ := bind_eq_ok_iff.1 h
    obtain ⟨hdcalc, hagree⟩ := ih he.1 hcalc hd
    obtain ⟨f, rfl⟩ := exists_relabelling he.1.nodup_outer he.2
    rw [rebuild, relabel_map f hagree.outer_perm, ok_bind] at h
    obtain ⟨rfl, -⟩ := mkBind_eq_ok_iff.1 h
    exact ⟨hdcalc, hagree.bind (expand_wellFormed he.1 hd).1 he.1 f⟩
  -- A mark is the only place where something is differentiated; everywhere else the operands are
  -- put together again.
  | derivative e along ih =>
    rw [calculable, Bool.and_eq_true, List.all_eq_true] at hcalc
    obtain ⟨d, hd, h⟩ := bind_eq_ok_iff.1 h
    obtain ⟨hdcalc, hagree⟩ := ih he.1 hcalc.1 hd
    obtain ⟨hdwf, hdmark⟩ := expand_wellFormed he.1 hd
    have hcount : ∀ c, (e.outer ++ ([] ++ along)).count c ≤ 2 := by
      intro c
      by_cases hc : c ∈ e.outer ++ along
      · simpa using hcalc.2 c hc
      · rw [List.nil_append, List.count_eq_zero.2 hc]
        omega
    have hstart : Agrees I dim d (derivative e []) := hagree.trans (agrees_derivative_nil he.1)
    simpa using differentiatePlain_agrees hC hdwf hdmark hdcalc hcount hstart h
  | sum l r ihl ihr =>
    rw [calculable, Bool.and_eq_true] at hcalc
    obtain ⟨dl, hdl, h⟩ := bind_eq_ok_iff.1 h
    obtain ⟨dr, hdr, h⟩ := bind_eq_ok_iff.1 h
    obtain ⟨rfl, -⟩ := mkSum_eq_ok_iff.1 h
    obtain ⟨hlcalc, hl⟩ := ihl he.1 hcalc.1 hdl
    obtain ⟨hrcalc, hr⟩ := ihr he.2.1 hcalc.2 hdr
    exact ⟨by simp [calculable, hlcalc, hrcalc], hl.sum hr⟩
  | difference l r ihl ihr =>
    rw [calculable, Bool.and_eq_true] at hcalc
    obtain ⟨dl, hdl, h⟩ := bind_eq_ok_iff.1 h
    obtain ⟨dr, hdr, h⟩ := bind_eq_ok_iff.1 h
    obtain ⟨rfl, -⟩ := mkDifference_eq_ok_iff.1 h
    obtain ⟨hlcalc, hl⟩ := ihl he.1 hcalc.1 hdl
    obtain ⟨hrcalc, hr⟩ := ihr he.2.1 hcalc.2 hdr
    exact ⟨by simp [calculable, hlcalc, hrcalc], hl.difference hr⟩
  | product l r ihl ihr =>
    rw [calculable, Bool.and_eq_true] at hcalc
    obtain ⟨dl, hdl, h⟩ := bind_eq_ok_iff.1 h
    obtain ⟨dr, hdr, h⟩ := bind_eq_ok_iff.1 h
    obtain ⟨rfl, -⟩ := mkProduct_eq_ok_iff.1 h
    obtain ⟨hlcalc, hl⟩ := ihl he.1 hcalc.1 hdl
    obtain ⟨hrcalc, hr⟩ := ihr he.2.1 hcalc.2 hdr
    exact ⟨by simp [calculable, hlcalc, hrcalc], hl.product hr⟩
  | ratio l r ihl ihr =>
    rw [calculable, Bool.and_eq_true] at hcalc
    obtain ⟨dl, hdl, h⟩ := bind_eq_ok_iff.1 h
    obtain ⟨dr, hdr, h⟩ := bind_eq_ok_iff.1 h
    obtain ⟨rfl, -⟩ := mkRatio_eq_ok_iff.1 h
    obtain ⟨hlcalc, hl⟩ := ihl he.1 hcalc.1 hdl
    obtain ⟨hrcalc, hr⟩ := ihr he.2.1 hcalc.2 hdr
    exact ⟨by simp [calculable, hlcalc, hrcalc], hl.ratio hr⟩
  | power l r ihl _ =>
    rw [calculable, Bool.and_eq_true] at hcalc
    obtain ⟨dl, hdl, h⟩ := bind_eq_ok_iff.1 h
    obtain ⟨dr, hdr, h⟩ := bind_eq_ok_iff.1 h
    obtain ⟨rfl, -⟩ := mkPower_eq_ok_iff.1 h
    -- The exponent is a literal integer, which expanding leaves alone.
    obtain ⟨z, labels, rfl⟩ := eq_int_of_isInteger hcalc.2
    cases hdr
    obtain ⟨hlcalc, hl⟩ := ihl he.1 hcalc.1 hdl
    refine ⟨?_, hl.power (.refl _)⟩
    rw [calculable, hlcalc, hcalc.2]
    rfl

end Agreement

end Expr

end Indicial
