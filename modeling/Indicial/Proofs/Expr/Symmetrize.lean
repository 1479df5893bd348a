import Indicial.Proofs.Expr.Value
import Mathlib.Data.Fintype.Perm
import Mathlib.GroupTheory.Perm.Basic

/-!
# Symmetrization

`Index.permutations` lists the orderings of labels that do not repeat: each of them once, the given
one first (`mem_permutations`, `nodup_permutations`, `exists_permutations_cons`). They are what the
permutations of the set of labels make of the given order (`shuffle`), so a sum over the list is a sum
over these permutations (`sum_permutations`).

Relabelling an expression by an ordering permutes the numbers of its free labels, and its
symmetrization adds up one relabelling for each ordering. It is thus the mean over all permutations
of these numbers (`symmetrize_averages`).
-/

namespace Indicial

open Equiv.Perm (ofSubtype)

namespace Index

variable {a p : Index} {fuel : Nat} {c : Label}

/-! ### Orderings -/

/-- At most one label has one order. -/
lemma orderings_of_length_le_one (h : a.length ≤ 1) : orderings fuel a = [a] := by
  cases fuel with
  | zero => rfl
  | succ fuel => rw [orderings, if_pos h]

/-- The first label is any of them, and the others follow in every order. -/
lemma orderings_succ (ha : a.Nodup) (h : 1 < a.length) :
    orderings (fuel + 1) a = a.flatMap fun c => (orderings fuel (a.erase c)).map (c :: ·) := by
  rw [orderings, if_neg (by omega)]
  simp only [ha.erase_eq_filter]

/-- At most one label has one permutation. -/
lemma perm_iff_of_length_le_one (h : a.length ≤ 1) : p.Perm a ↔ p = a := by
  cases a with
  | nil => exact List.perm_nil
  | cons c rest =>
    obtain rfl : rest = [] := List.length_eq_zero_iff.1 (by simpa using h)
    exact List.perm_singleton

/-- The orders are the permutations. -/
lemma mem_orderings (ha : a.Nodup) (hfuel : a.length ≤ fuel + 1) :
    p ∈ orderings fuel a ↔ p.Perm a := by
  induction fuel generalizing a p with
  | zero =>
    rw [orderings_of_length_le_one hfuel, List.mem_singleton, perm_iff_of_length_le_one hfuel]
  | succ fuel ih =>
    by_cases hshort : a.length ≤ 1
    · rw [orderings_of_length_le_one hshort, List.mem_singleton, perm_iff_of_length_le_one hshort]
    · have hrest : ∀ c ∈ a, ∀ q, q ∈ orderings fuel (a.erase c) ↔ q.Perm (a.erase c) := by
        intro c hc q
        have hlen := List.length_erase_of_mem hc
        exact ih (ha.erase c) (by omega)
      rw [orderings_succ ha (by omega), List.mem_flatMap]
      constructor
      · rintro ⟨c, hc, hp⟩
        obtain ⟨q, hq, rfl⟩ := List.mem_map.1 hp
        exact List.cons_perm_iff_perm_erase.2 ⟨hc, (hrest c hc q).1 hq⟩
      · intro hp
        cases p with
        | nil =>
          rw [List.nil_perm] at hp
          simp [hp] at hshort
        | cons c q =>
          obtain ⟨hc, hq⟩ := List.cons_perm_iff_perm_erase.1 hp
          exact ⟨c, hc, List.mem_map_of_mem ((hrest c hc q).2 hq)⟩

/-- No order is listed twice. -/
lemma nodup_orderings (ha : a.Nodup) : (orderings fuel a).Nodup := by
  induction fuel generalizing a with
  | zero => exact List.nodup_singleton _
  | succ fuel ih =>
    by_cases hshort : a.length ≤ 1
    · rw [orderings_of_length_le_one hshort]
      exact List.nodup_singleton _
    · rw [orderings_succ ha (by omega), List.nodup_flatMap]
      refine ⟨fun c _ => (ih (ha.erase c)).map fun _ _ h => (List.cons.inj h).2, ?_⟩
      -- Orderings with different first labels differ.
      refine ha.imp fun {c d} hne p hc hd => ?_
      obtain ⟨q, -, rfl⟩ := List.mem_map.1 hc
      obtain ⟨q', -, heq⟩ := List.mem_map.1 hd
      exact hne (List.cons.inj heq).1.symm

/-- The given order comes first. -/
lemma exists_orderings_cons (ha : a.Nodup) : ∃ others, orderings fuel a = a :: others := by
  induction fuel generalizing a with
  | zero => exact ⟨[], rfl⟩
  | succ fuel ih =>
    by_cases hshort : a.length ≤ 1
    · exact ⟨[], orderings_of_length_le_one hshort⟩
    · cases a with
      | nil => simp at hshort
      | cons c rest =>
        obtain ⟨others, hothers⟩ := ih (List.nodup_cons.1 ha).2
        rw [orderings_succ ha (by omega), List.flatMap_cons, List.erase_cons_head, hothers]
        exact ⟨_, rfl⟩

/-- Exactly the orderings are listed. -/
lemma mem_permutations (ha : a.Nodup) : p ∈ permutations a ↔ p.Perm a :=
  mem_orderings ha (Nat.le_succ _)

/-- No permutation is listed twice. -/
lemma nodup_permutations (ha : a.Nodup) : (permutations a).Nodup := nodup_orderings ha

/-- The given order is listed first. -/
lemma exists_permutations_cons (ha : a.Nodup) : ∃ others, permutations a = a :: others :=
  exists_orderings_cons ha

/-! ### Permutations of the labels -/

/-- The labels in the order that a permutation of them gives. -/
def shuffle (a : Index) (π : Equiv.Perm {c // c ∈ a}) : Index := a.map (ofSubtype π)

variable {π : Equiv.Perm {c // c ∈ a}}

/-- A permutation of the labels acts on them. -/
lemma ofSubtype_of_mem (hc : c ∈ a) : ofSubtype π c = π ⟨c, hc⟩ :=
  Equiv.Perm.ofSubtype_apply_of_mem π hc

/-- Shuffled labels are permuted labels. -/
lemma shuffle_perm (ha : a.Nodup) (π : Equiv.Perm {c // c ∈ a}) : (shuffle a π).Perm a := by
  refine perm_of_nodup (ha.map (ofSubtype π).injective) ha fun c => ?_
  rw [shuffle, List.mem_map]
  constructor
  · rintro ⟨d, hd, rfl⟩
    rw [ofSubtype_of_mem hd]
    exact (π ⟨d, hd⟩).2
  · intro hc
    refine ⟨π.symm ⟨c, hc⟩, (π.symm ⟨c, hc⟩).2, ?_⟩
    rw [ofSubtype_of_mem (π.symm ⟨c, hc⟩).2, Subtype.coe_eta, Equiv.apply_symm_apply]

/-- Different permutations shuffle differently. -/
lemma shuffle_injective (a : Index) : Function.Injective (shuffle a) := by
  intro π π' h
  refine Equiv.ext fun ⟨c, hc⟩ => Subtype.ext ?_
  have hsame := List.map_inj_left.1 h c hc
  rwa [ofSubtype_of_mem hc, ofSubtype_of_mem hc] at hsame

/-- Every ordering comes from a permutation of the labels. -/
lemma exists_shuffle (ha : a.Nodup) (hp : p.Perm a) : ∃ π, shuffle a π = p := by
  obtain ⟨f, rfl⟩ := Expr.exists_relabelling ha hp.length_eq
  have hmem : ∀ c : {c // c ∈ a}, f c ∈ a := fun c => hp.mem_iff.1 (List.mem_map_of_mem c.2)
  have hinjective : Function.Injective fun c : {c // c ∈ a} => (⟨f c, hmem c⟩ : {c // c ∈ a}) := by
    intro c d h
    exact Subtype.ext (List.inj_on_of_nodup_map (hp.nodup_iff.2 ha) c.2 d.2 (Subtype.mk.inj h))
  refine ⟨Equiv.ofBijective _ (Finite.injective_iff_bijective.1 hinjective), ?_⟩
  apply List.map_congr_left
  intro c hc
  rw [ofSubtype_of_mem hc, Equiv.ofBijective_apply]

/-- A sum over the orderings is a sum over the permutations of the labels. -/
lemma sum_permutations {M : Type*} [AddCommMonoid M] (ha : a.Nodup) (f : Index → M) :
    ((permutations a).map f).sum = ∑ π : Equiv.Perm {c // c ∈ a}, f (shuffle a π) := by
  have hset : (permutations a).toFinset = Finset.univ.image (shuffle a) := by
    ext p
    rw [List.mem_toFinset, mem_permutations ha, Finset.mem_image]
    constructor
    · intro hp
      obtain ⟨π, hπ⟩ := exists_shuffle ha hp
      exact ⟨π, Finset.mem_univ π, hπ⟩
    · rintro ⟨π, -, rfl⟩
      exact shuffle_perm ha π
  rw [← List.sum_toFinset f (nodup_permutations ha), hset,
    Finset.sum_image ((shuffle_injective a).injOn)]

/-- There are as many permutations as the factorial of the length. -/
lemma card_permutations (ha : a.Nodup) :
    Fintype.card (Equiv.Perm {c // c ∈ a}) = a.length.factorial := by
  rw [Fintype.card_perm, Fintype.card_of_subtype a.toFinset fun c => List.mem_toFinset,
    List.toFinset_card_of_nodup ha]

/-- As many permutations are listed as the factorial of the length. -/
lemma length_permutations (ha : a.Nodup) : (permutations a).length = a.length.factorial := by
  have hsum := sum_permutations ha fun _ => 1
  rwa [List.map_const', List.sum_replicate, smul_eq_mul, mul_one, Finset.sum_const, Finset.card_univ,
    smul_eq_mul, mul_one, card_permutations ha] at hsum

end Index

namespace Valuation

variable {K : Type*} [Field K] {a : Index} {v : Valuation → K}

/-- The mean of a value over all permutations of the numbers of some labels. -/
def mean (a : Index) (v : Valuation → K) (ρ : Valuation) : K :=
  1 / (a.length.factorial : K) * ∑ π : Equiv.Perm {c // c ∈ a}, v (ρ ∘ ofSubtype π)

/-- No permutation of the numbers of the labels changes the value. -/
def Symmetric (a : Index) (v : Valuation → K) : Prop :=
  ∀ ρ (π : Equiv.Perm {c // c ∈ a}), v (ρ ∘ ofSubtype π) = v ρ

/-- The mean over all permutations is symmetric. -/
lemma symmetric_mean (a : Index) (v : Valuation → K) : Symmetric a (mean a v) := by
  intro ρ π
  have hcomp : ∀ π' : Equiv.Perm {c // c ∈ a},
      (ρ ∘ ofSubtype π) ∘ ofSubtype π' = ρ ∘ ofSubtype (Equiv.mulLeft π π') := by
    intro π'
    rw [Equiv.coe_mulLeft, map_mul, Equiv.Perm.coe_mul, Function.comp_assoc]
  simp only [mean, hcomp]
  rw [Equiv.sum_comp (Equiv.mulLeft π) fun π' => v (ρ ∘ ofSubtype π')]

/-- A symmetric value is its own mean. -/
lemma Symmetric.mean_eq [CharZero K] (ha : a.Nodup) (h : Symmetric a v) : mean a v = v := by
  funext ρ
  have hpos : (a.length.factorial : K) ≠ 0 := Nat.cast_ne_zero.2 a.length.factorial_ne_zero
  rw [mean, Finset.sum_congr rfl fun π _ => h ρ π, Finset.sum_const, Finset.card_univ,
    Index.card_permutations ha, nsmul_eq_mul, ← mul_assoc, one_div_mul_cancel hpos, one_mul]

end Valuation

namespace Expr

open Indicial.Valuation

variable {e : Expr} {labels : Index}

/-! ### Sums of many terms -/

section Terms

variable {first : Expr} {rest : List Expr}

/-- Summands with the same labels are added from left to right. -/
lemma foldlM_mkSum (h : ∀ t ∈ rest, first.outer.Perm t.outer) :
    rest.foldlM mkSum first = .ok (rest.foldl sum first) := by
  induction rest generalizing first with
  | nil => rfl
  | cons t rest ih =>
    obtain ⟨ht, hrest⟩ := List.forall_mem_cons.1 h
    rw [List.foldlM_cons, mkSum_eq_ok_iff.2 ⟨rfl, ht⟩, ok_bind]
    exact ih hrest

/-- A chain of sums has the labels of the first summand. -/
lemma outer_foldl_sum (first : Expr) (rest : List Expr) :
    (rest.foldl sum first).outer = first.outer := by
  induction rest generalizing first with
  | nil => rfl
  | cons t rest ih => exact ih (sum first t)

/-- A chain of sums of well-formed summands is well-formed. -/
lemma WellFormed.foldl_sum (hfirst : first.WellFormed)
    (h : ∀ t ∈ rest, t.WellFormed ∧ first.outer.Perm t.outer) :
    (rest.foldl sum first).WellFormed := by
  induction rest generalizing first with
  | nil => exact hfirst
  | cons t rest ih =>
    obtain ⟨⟨ht, hperm⟩, hrest⟩ := List.forall_mem_cons.1 h
    exact ih ⟨hfirst, ht, hperm⟩ hrest

/-- The value of a chain of sums is the sum of the values. -/
lemma value_foldl_sum {K : Type*} [Field K] (I : Interpretation K) (dim : Nat) (first : Expr)
    (rest : List Expr) (ρ : Valuation) :
    value I dim (rest.foldl sum first) ρ
      = ((first :: rest).map fun t => value I dim t ρ).sum := by
  induction rest generalizing first with
  | nil => simp
  | cons t rest ih =>
    rw [List.foldl_cons, ih]
    simp [value_sum, add_assoc]

end Terms

/-! ### Reordering -/

/-- The relabelling of an expression by an ordering of its free labels. The order that they have needs
none. -/
def reordered (e : Expr) (labels : Index) : Expr :=
  if labels = e.outer then e else bind e labels

/-- Binding the labels of an expression in another order succeeds. -/
lemma reordered_eq_ok (h : labels.Perm e.outer) :
    (if labels = e.outer then .ok e else mkBind e labels) = .ok (reordered e labels) := by
  rw [reordered]
  split
  · rfl
  · exact mkBind_eq_ok_iff.2 ⟨rfl, h.length_eq⟩

/-- The own order of the labels changes nothing. -/
lemma reordered_outer (e : Expr) : reordered e e.outer = e := if_pos rfl

/-- A reordered expression is well-formed. -/
lemma WellFormed.reordered (he : e.WellFormed) (h : labels.Perm e.outer) :
    (reordered e labels).WellFormed := by
  rw [Expr.reordered]
  split
  · exact he
  · exact ⟨he, h.length_eq⟩

/-- A reordered expression has its labels in the new order. -/
lemma outer_reordered (h : labels.Nodup) : (reordered e labels).outer = labels := by
  rw [reordered]
  split
  · exact (by assumption : labels = e.outer).symm
  · exact Index.exclusive_eq_self h

/-- The relabelling by the ordering that a permutation gives permutes the numbers of the labels. -/
lemma value_reordered_shuffle {K : Type*} [Field K] {I : Interpretation K} {dim : Nat}
    (he : e.WellFormed) (π : Equiv.Perm {c // c ∈ e.outer}) (ρ : Valuation) :
    value I dim (reordered e (Index.shuffle e.outer π)) ρ
      = value I dim e (ρ ∘ ofSubtype π) := by
  rw [reordered]
  split
  · rename_i hsame
    have hone : π = 1 := Index.shuffle_injective e.outer (hsame.trans (by simp [Index.shuffle]))
    rw [hone, map_one, Equiv.Perm.coe_one, Function.comp_id]
  · have hnodup : (e.outer.map (ofSubtype π)).Nodup :=
      (Index.shuffle_perm he.nodup_outer π).nodup_iff.2 he.nodup_outer
    rw [Index.shuffle, value_bind_map he, Index.repeated_eq_nil_iff.2 hnodup, sumLabels_nil]

/-! ### The symmetrization -/

/-- The fraction of one by a positive number is exact. -/
lemma fraction_one {n : Nat} (hn : n ≠ 0) :
    Literal.fraction 1 n = .ok (.exact (1 / (n : Rat))) := by
  rw [Literal.fraction, if_neg (by exact_mod_cast hn)]
  simp

/-- Fewer than two labels have one ordering. -/
lemma symmetric_of_length_lt_two {K : Type*} [Field K] (v : Valuation → K) (h : labels.length < 2) :
    Symmetric labels v := by
  have hsingle : Subsingleton {c // c ∈ labels} := by
    refine ⟨fun c d => Subtype.ext ?_⟩
    match labels, h with
    | [x], _ => rw [List.mem_singleton.1 c.2, List.mem_singleton.1 d.2]
  intro ρ π
  rw [Subsingleton.elim π 1, map_one, Equiv.Perm.coe_one, Function.comp_id]

/-- From rank two on, the symmetrization is a share of the sum of all reorderings. -/
lemma symmetrize_eq_ok (he : e.WellFormed) (hrank : ¬ e.rank < 2) :
    ∃ others, Index.permutations e.outer = e.outer :: others ∧
      (∀ t ∈ others.map (reordered e), t.WellFormed ∧ e.outer.Perm t.outer) ∧
      symmetrize e = .ok (product (number (.exact (1 / (e.rank.factorial : Rat))))
        ((others.map (reordered e)).foldl sum e)) := by
  have hnodup := he.nodup_outer
  obtain ⟨others, hothers⟩ := Index.exists_permutations_cons hnodup
  have hperm : ∀ labels ∈ Index.permutations e.outer, labels.Perm e.outer :=
    fun labels hlabels => (Index.mem_permutations hnodup).1 hlabels
  have hrest : ∀ t ∈ others.map (reordered e), t.WellFormed ∧ e.outer.Perm t.outer := by
    intro t ht
    obtain ⟨labels, hlabels, rfl⟩ := List.mem_map.1 ht
    have hp := hperm labels (hothers ▸ List.mem_cons_of_mem _ hlabels)
    rw [outer_reordered (hp.nodup_iff.2 hnodup)]
    exact ⟨he.reordered hp, hp.symm⟩
  refine ⟨others, hothers, hrest, ?_⟩
  have hterms := mapM_eq_ok_of_forall fun labels hlabels => reordered_eq_ok (hperm labels hlabels)
  have htotal : addAll ((Index.permutations e.outer).map (reordered e))
      = .ok ((others.map (reordered e)).foldl sum e) := by
    rw [hothers, List.map_cons, reordered_outer]
    exact foldlM_mkSum fun t ht => (hrest t ht).2
  have hfits : (Index.symmetricDifference [] ((others.map (reordered e)).foldl sum e).outer).length
      ≤ Index.capacity := by
    rw [Index.nil_symmetricDifference, outer_foldl_sum]
    exact he.length_outer_le
  rw [symmetrize, if_neg hrank]
  dsimp only
  rw [hterms, ok_bind, Index.length_permutations hnodup, fraction_one (Nat.factorial_ne_zero _),
    ok_bind, htotal, ok_bind]
  exact mkProduct_eq_ok_iff.2 ⟨rfl, hfits⟩

/-- The symmetrization of a well-formed expression succeeds, with the same free labels and the mean of
its values. -/
lemma exists_symmetrize (he : e.WellFormed) :
    ∃ s, symmetrize e = .ok s ∧ s.WellFormed ∧ s.outer = e.outer ∧
      ∀ (K : Type*) [ExactNumbers K] (I : Interpretation K) (dim : Nat),
        value I dim s = mean e.outer (value I dim e) := by
  have hnodup := he.nodup_outer
  by_cases hrank : e.rank < 2
  · refine ⟨e, by rw [symmetrize, if_pos hrank], he, rfl, fun K _ I dim => ?_⟩
    exact ((symmetric_of_length_lt_two _ hrank).mean_eq hnodup).symm
  · obtain ⟨others, hothers, hrest, hok⟩ := symmetrize_eq_ok he hrank
    have houter : ((others.map (reordered e)).foldl sum e).outer = e.outer := outer_foldl_sum e _
    have htotal := he.foldl_sum hrest
    refine ⟨_, hok, ⟨⟨List.nodup_nil, Nat.zero_le _⟩, htotal, ?_⟩, ?_, fun K _ I dim => ?_⟩
    · show (Index.symmetricDifference [] _).length ≤ _
      rw [Index.nil_symmetricDifference, houter]
      exact he.length_outer_le
    · show Index.symmetricDifference [] _ = _
      rw [Index.nil_symmetricDifference, houter]
    · funext ρ
      calc value I dim (product (number _) ((others.map (reordered e)).foldl sum e)) ρ
          = (((1 / (e.rank.factorial : Rat) : Rat)) : K)
              * value I dim ((others.map (reordered e)).foldl sum e) ρ :=
            value_product_of_rank_zero rfl
        _ = 1 / (e.rank.factorial : K) * ((Index.permutations e.outer).map fun labels =>
              value I dim (reordered e labels) ρ).sum := by
            rw [value_foldl_sum, hothers]
            simp [reordered_outer, Function.comp_def]
        _ = mean e.outer (value I dim e) ρ := by
            rw [Index.sum_permutations hnodup]
            simp only [value_reordered_shuffle he]
            rfl

/-- The symmetrization of an expression is the mean of its values over all permutations of the numbers
of its free labels, of which there are as many as the factorial of its rank. It has the same free
labels, no permutation of their numbers changes its value, a symmetric expression keeps its value, and
a second symmetrization changes nothing. -/
theorem symmetrize_averages (he : Built e) :
    ∃ s s', symmetrize e = .ok s ∧ symmetrize s = .ok s' ∧ s.outer = e.outer ∧
      Fintype.card (Equiv.Perm {c // c ∈ e.outer}) = e.rank.factorial ∧
      ∀ (K : Type*) [ExactNumbers K] (I : Interpretation K) (dim : Nat),
        (∀ ρ, value I dim s ρ
          = 1 / (e.rank.factorial : K)
            * ∑ π : Equiv.Perm {c // c ∈ e.outer}, value I dim e (ρ ∘ ofSubtype π)) ∧
        Symmetric e.outer (value I dim s) ∧
        (Symmetric e.outer (value I dim e) → ∀ ρ, value I dim s ρ = value I dim e ρ) ∧
        ∀ ρ, value I dim s' ρ = value I dim s ρ := by
  have hnodup := he.wellFormed.nodup_outer
  obtain ⟨s, hs, hwf, houter, hmean⟩ := exists_symmetrize he.wellFormed
  obtain ⟨s', hs', -, -, hmean'⟩ := exists_symmetrize hwf
  refine ⟨s, s', hs, hs', houter, Index.card_permutations hnodup, fun K _ I dim => ?_⟩
  have hsymmetric : Symmetric e.outer (value I dim s) := by
    rw [hmean K I dim]
    exact symmetric_mean _ _
  refine ⟨congrFun (hmean K I dim), hsymmetric, fun h ρ => ?_, fun ρ => ?_⟩
  · rw [hmean K I dim, h.mean_eq hnodup]
  · rw [hmean' K I dim, houter, hsymmetric.mean_eq hnodup]

/-- The symmetrized matrix is the mean of the matrix and its transpose. -/
theorem symmetrize_averages_matrix :
    Built (tensor ⟨[65], 2, 0⟩ [105, 106]) ∧
      ∃ s, symmetrize (tensor ⟨[65], 2, 0⟩ [105, 106]) = .ok s ∧
        ∀ (I : Interpretation ℚ) (ρ : Valuation), value I 3 s ρ
          = 1 / 2 * (I.leaf ⟨[65], 2, 0⟩ [ρ 105, ρ 106] + I.leaf ⟨[65], 2, 0⟩ [ρ 106, ρ 105]) := by
  have hwf : (tensor ⟨[65], 2, 0⟩ [105, 106]).WellFormed := ⟨by decide, by decide⟩
  obtain ⟨s, s', hs, -, -, -, hvalue⟩ := symmetrize_averages hwf.built
  refine ⟨hwf.built, s, hs, fun I ρ => ?_⟩
  have hterm : ∀ π, value I 3 (tensor ⟨[65], 2, 0⟩ [105, 106]) (ρ ∘ ofSubtype π)
      = I.leaf ⟨[65], 2, 0⟩ ((Index.shuffle (tensor ⟨[65], 2, 0⟩ [105, 106]).outer π).map ρ) :=
    fun _ => rfl
  rw [(hvalue ℚ I 3).1 ρ, Finset.sum_congr rfl fun π _ => hterm π,
    ← Index.sum_permutations hwf.nodup_outer fun p => I.leaf ⟨[65], 2, 0⟩ (p.map ρ),
    show Index.permutations (tensor ⟨[65], 2, 0⟩ [105, 106]).outer = [[105, 106], [106, 105]] by decide]
  simp [rank, show (tensor ⟨[65], 2, 0⟩ [105, 106]).outer = [105, 106] by decide]

end Expr

end Indicial
