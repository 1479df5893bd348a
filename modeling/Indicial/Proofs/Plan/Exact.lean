import Indicial.Proofs.Plan.Run
import Indicial.Proofs.Plan.Value
import Indicial.Proofs.Tree.Faithful

/-!
# Plans compute values

In the arithmetic of a field, the plan of a flattened expression computes the value of the expression
(`ofTree_computes_value`): whatever the storage held before, in every lane the number at the position of
an assignment of the free labels in the root window is the value under that assignment. The scalars of
a lane are those that the inputs have at its point.

Storage suffices when it has a slot in every lane for all windows together. That is what `Frame.fits`
finds as long as the number of lanes is below `2 ^ 32`, since sizes are words of 64 bits. The inputs
suffice when there is a number for each constant of the catalog (`coverTree_of_flatten`); every scalar is
then read at its position (`getElem?_eq_readRef`, `readRef_eq_field`). Both ask for tables that words of
32 bits can number.
-/

namespace Indicial

open Odometer Indicial.Expr

/-- The interpretation under which scalars, and the tensors they belong to, are what `read` says. -/
def Interpretation.reading {K : Type} (I : Interpretation K) (constant : Tensor → Bool)
    (read : ScalarRef → K) : Interpretation K :=
  { I with
    ref := read
    leaf := fun symbol values => read (.ofValues symbol values (constant symbol)) }

/-- Tensors are read as their scalars. -/
lemma Interpretation.reading_readsScalars {K : Type} (I : Interpretation K) (constant : Tensor → Bool)
    (read : ScalarRef → K) : (I.reading constant read).ReadsScalars constant :=
  fun _ _ => rfl

/-- Literals stand for the same numbers. -/
lemma Interpretation.literal_reading {K : Type} [ExactNumbers K] (I : Interpretation K)
    (constant : Tensor → Bool) (read : ScalarRef → K) : (I.reading constant read).literal = I.literal := by
  funext x
  cases x with
  | exact => rfl
  | float => rfl

namespace Plan

variable {α : Type} {plan : Plan α} {t : Tree α} {A : Arith α} {f : Frame α}

/-- The depth of a plan is that of its tree. -/
lemma depth_of_ofTree (h : Plan.ofTree A t = .ok plan) : plan.depth = t.depth.toInt64 := by
  obtain ⟨⟨⟩, -, h⟩ := bind_eq_ok_iff.1 h
  obtain ⟨nodes, -, h⟩ := bind_eq_ok_iff.1 h
  cases h
  rfl

/-- Storage is found to fit exactly when it has a slot in every lane for the whole depth. -/
lemma fits_iff {S : Nat} (hdepth : plan.depth.toInt = S) (hS : S < 2 ^ 31) (hwidth : f.width < 2 ^ 32) :
    f.fits plan = true ↔ S * f.width ≤ f.stack.size := by
  have hbound : S * f.width < 2 ^ 63 :=
    calc S * f.width ≤ 2 ^ 31 * f.width := Nat.mul_le_mul_right _ hS.le
      _ < 2 ^ 31 * 2 ^ 32 := Nat.mul_lt_mul_of_pos_left hwidth (by decide)
      _ = 2 ^ 63 := rfl
  have hword : (Int64.ofNat f.width).toInt = f.width := Int64.toInt_ofNat_of_lt (by omega)
  have hproduct : plan.depth.toInt * (Int64.ofNat f.width).toInt = ((S * f.width : Nat) : Int) := by
    rw [hdepth, hword]
    exact (Int.natCast_mul _ _).symm
  rw [Frame.fits, decide_eq_true_eq, toInt_mul_of_lt (by omega) (by omega), hproduct]
  exact Int.ofNat_le

/-- There are as many entries as rows times columns. -/
lemma length_flatten_rows {β : Type} (x : Nat → Nat → β) (N W : Nat) :
    ((List.range N).map fun q => (List.range W).map (x q)).flatten.length = N * W := by
  rw [List.length_flatten]
  simp [Function.comp_def]

/-- Numbers laid out row by row are found again at their row and column. -/
lemma getElem?_flatten_rows {β : Type} (x : Nat → Nat → β) {N W q c : Nat} (hq : q < N) (hc : c < W) :
    ((List.range N).map fun q => (List.range W).map (x q)).flatten[q * W + c]? = some (x q c) := by
  induction N with
  | zero => omega
  | succ N ih =>
    rw [List.range_succ, List.map_append, List.flatten_append]
    rcases Nat.lt_succ_iff_lt_or_eq.1 hq with hlt | rfl
    · have hplace : q * W + c < N * W := Frame.place_lt hlt hc
      rw [List.getElem?_append_left (by rw [length_flatten_rows]; exact hplace), ih hlt]
    · rw [List.getElem?_append_right (by rw [length_flatten_rows]; omega), length_flatten_rows,
        Nat.add_sub_cancel_left]
      simp [hc]

/-- The whole root window, when each of its numbers is known. -/
lemma results_eq_ok {N : Nat} {x : Nat → Nat → α} (hsize : plan.rootSize = Int64.ofNat N)
    (hN : N < 2 ^ 63) (hwindow : f.window plan.root plan.rootSize = .ok ())
    (hresult : ∀ q < N, ∀ c < f.width, plan.result f q c = .ok (x q c)) :
    plan.results f = .ok ((List.range N).map fun q => (List.range f.width).map (x q)).flatten := by
  have hrow : ∀ q ∈ List.range N, ((List.range f.width).mapM fun c => plan.result f q c)
      = .ok ((List.range f.width).map (x q)) := by
    intro q hq
    exact mapM_eq_ok_of_forall fun c hc => hresult q (List.mem_range.1 hq) c (List.mem_range.1 hc)
  rw [results, hwindow, ok_bind, hsize, toNat_toInt_ofNat hN, mapM_eq_ok_of_forall hrow]
  rfl

end Plan

/-- Leaves that are stored as constants read constants. -/
lemma Expr.constant_of_storedKind {constant : Constancy} {D : Nat} {m : Expr} {r : ScalarRef}
    (hkind : m.storedKind constant = .constant) (hr : r ∈ m.ownScalars constant D) :
    r.constant = true := by
  have hscalarKind : ∀ {b}, scalarKind b = .constant → b = true := by decide
  cases m with
  | tensor symbol labels =>
    obtain ⟨k, -, rfl⟩ := List.mem_map.1 hr
    exact hscalarKind hkind
  | scalar ref =>
    obtain rfl := List.mem_singleton.1 hr
    exact hscalarKind hkind
  | _ => cases hr

/-- A flattened expression refers to constants of the catalog, so the inputs cover its tree when they
have a number for each of these and words can number them. -/
lemma coverTree_of_flatten {α : Type} {w : Lowering α} {n : Expr} {t : Tree α} {inputs : Inputs α}
    (hn : n.WellFormed) (hflat : flatten w n = .ok t) (hsmall : w.catalog.constants.length ≤ 2 ^ 31)
    (hsize : w.catalog.constants.length ≤ inputs.constants.size) : inputs.CoverTree t := by
  obtain ⟨hdim, hD, hle⟩ := dim_of_flatten hflat
  obtain ⟨-, -, -, es, hemitted, hholds, -⟩ := flatten_holds hflat hdim (by omega)
  intro i hi hkind id hid
  rw [hholds.nodes] at hi
  have hentry := List.getElem?_eq_getElem hi
  rw [hholds.kind hentry] at hkind
  rw [hholds.ids hentry] at hid
  obtain ⟨m, hm, left, hroot⟩ := exists_of_mem_right hemitted.forall₂_postorder (List.getElem_mem hi)
  obtain ⟨-, hx⟩ :=
    describes_of_rootEntry hD hle hdim (wellFormed_of_mem_postorder hn hm) hroot
  obtain ⟨r, hr, k, hk, -, hword⟩ := exists_of_mem_right hx.ids hid
  have hconstant := constant_of_storedKind (hx.kind.symm.trans (Option.some.inj hkind)) hr
  have htable : w.catalog.tableOf r = w.catalog.constants := by rw [Catalog.tableOf, if_pos hconstant]
  rw [htable] at hk hword
  have hlt := (List.getElem?_eq_some_iff.1 hk).1
  rw [hword hsmall]
  omega

section Exact

variable {K : Type} [ExactNumbers K] {w : Lowering K} {n : Expr} {t : Tree K}

/-- The stack machine computes the expression: a flattened expression without marks can be planned when
its windows together stay below `2 ^ 31` slots, and after a run on storage with that many slots in every
lane, whatever they held, the root window has in each lane, at the row-major position of every assignment
of the free labels, the value of the expression under it, where scalars are read from the inputs of that
lane. -/
theorem ofTree_computes_value (I : Interpretation K) (hn : Built n) (hmark : n.hasDerivative = false)
    (hvalue : w.value = I.literal) (hflat : flatten w n = .ok t) (htotal : t.totalWindow < 2 ^ 31) :
    ∃ plan, Plan.ofTree I.arith t = .ok plan ∧
      (∀ f : Frame K, f.width < 2 ^ 32 →
        (f.fits plan = true ↔ t.totalWindow * f.width ≤ f.stack.size)) ∧
      ∀ (inputs : Inputs K) (f : Frame K), inputs.CoverTree t →
        t.totalWindow * f.width ≤ f.stack.size →
        ∃ f' window, plan.run I.arith inputs f = .ok f' ∧ plan.results f' = .ok window ∧
          window.length = w.dim.toInt.toNat ^ n.rank * f.width ∧
          ∀ σ : Valuation, (∀ c ∈ n.outer, σ c < w.dim.toInt.toNat) → ∀ lane < f.width,
            window[place w.dim.toInt.toNat (n.outer.map σ) * f.width + lane]? = some
              (n.value (I.reading w.constant (inputs.readRef w.catalog 0 lane)) w.dim.toInt.toNat σ) := by
  obtain ⟨hdim, hD, hle⟩ := dim_of_flatten hflat
  generalize w.dim.toInt.toNat = D at *
  have hwf := hn.wellFormed
  obtain ⟨plan, hplan, heval⟩ := ofTree_evaluates I.arith hflat hdim (by omega) hwf hmark htotal
  obtain ⟨-, -, -, es, -, hholds, -⟩ := flatten_holds hflat hdim (by omega)
  have hdepth : t.depth.toInt = t.totalWindow := by
    rw [hholds.totalWindow_eq (by omega)] at htotal ⊢
    rw [hholds.depth, toInt32_ofNat_of_lt htotal]
  have hwords : plan.depth.toInt = t.totalWindow := by
    rw [Plan.depth_of_ofTree hplan, Int32.toInt_toInt64, hdepth]
  refine ⟨plan, hplan, fun f hwidth => Plan.fits_iff hwords htotal hwidth, fun inputs f hcover hfits => ?_⟩
  obtain ⟨v, hf⟩ := Frame.exists_shows rfl hfits (0 : K)
  obtain ⟨f', v', hrun, hf', hwindow, hresult⟩ :=
    heval.run f.width t.totalWindow inputs f v (by omega) (by omega) hcover hf
  have hzero : I.arith.zero = 0 := Int.cast_zero
  have hwidth := hf'.width
  have hlt := heval.size_lt
  rw [← hwidth, hzero] at hresult
  have hresults := Plan.results_eq_ok heval.rootSize (by omega) hwindow hresult
  refine ⟨f', _, hrun, hresults, ?_, fun σ hσ lane hlane => ?_⟩
  · rw [Plan.length_flatten_rows, hwidth, rank]
  · rw [← hwidth] at hlane ⊢
    rw [Plan.getElem?_flatten_rows _ (place_map_lt hσ) hlane]
    congr 1
    exact window_eq_value hD (hvalue.trans (I.literal_reading _ _).symm) (I.reading_readsScalars _ _) hwf
      hmark hσ

end Exact

/-- The product `T(i, j) v(j)`. -/
def matrixVector : Expr :=
  .product (.tensor ⟨Bytes.ofString "T", 2, 0⟩ [105, 106]) (.tensor ⟨Bytes.ofString "v", 1, 1⟩ [106])

/-- No tensor counts, and powers and functions give their argument back. -/
def silent : Interpretation ℚ where
  leaf _ _ := 0
  ref _ := 0
  float _ := 0
  power x _ := x
  apply _ x := x
  derive _ x := x

/-- Flattening in the plane with the components of `T` and `v` in order. -/
def numberedPlane : Lowering ℚ where
  dim := 2
  constant _ := false
  catalog :=
    ⟨[], (Odometer.visits 2 2).map (.ofValues ⟨Bytes.ofString "T", 2, 0⟩ · false) ++
      (Odometer.visits 1 2).map (.ofValues ⟨Bytes.ofString "v", 1, 1⟩ · false)⟩
  value := silent.literal

/-- With the six components read as `0` to `5`, the plan leaves `0 * 4 + 1 * 5` and `2 * 4 + 3 * 5` in
storage that was full of sevens. -/
theorem ofTree_computes_matrixVector :
    ∃ t plan f', flatten numberedPlane matrixVector = .ok t ∧ Plan.ofTree silent.arith t = .ok plan ∧
      plan.run silent.arith ⟨fun id _ => id.toInt, #[], 0⟩ ⟨1, Array.replicate 8 7⟩ = .ok f' ∧
      plan.results f' = .ok [5, 23] := by
  have hbuilt : Built matrixVector := by
    apply WellFormed.built
    simp [matrixVector, WellFormed, outer, Index.capacity, Index.exclusive, Index.symmetricDifference,
      Index.minus]
  have hflat : ((flatten numberedPlane matrixVector).toOption.any fun t => t.totalWindow == 8)
      = true := by decide +kernel
  obtain ⟨t, hflat, htotal⟩ := toOption_any_iff.1 hflat
  rw [beq_iff_eq] at htotal
  obtain ⟨plan, hplan, -, hruns⟩ :=
    ofTree_computes_value silent hbuilt rfl rfl hflat (by rw [htotal]; decide)
  -- Nothing is constant, so no numbers cover the tree.
  have hcover : Inputs.CoverTree ⟨fun id _ => (id.toInt : ℚ), #[], 0⟩ t :=
    coverTree_of_flatten hbuilt.wellFormed hflat (by decide) (by decide)
  obtain ⟨f', window, hrun, hresults, hlength, hwindow⟩ := hruns ⟨fun id _ => id.toInt, #[], 0⟩
    ⟨1, Array.replicate 8 7⟩ hcover (by rw [htotal]; decide)
  have hdim : numberedPlane.dim.toInt.toNat = 2 := by decide
  rw [hdim] at hlength hwindow
  replace hlength : window.length = 2 := hlength
  have hvalue : ∀ q < 2, window[q]? = some (matrixVector.value (silent.reading (fun _ => false)
      (Inputs.readRef numberedPlane.catalog ⟨fun id _ => id.toInt, #[], 0⟩ 0 0)) 2 fun _ => q) := by
    intro q hq
    have hplace : place 2 (matrixVector.outer.map fun _ => q) = q := by
      simp [matrixVector, outer, Index.exclusive, Index.symmetricDifference, Index.minus, place]
    have hentry := hwindow (fun _ => q) (fun _ _ => hq) 0 Nat.one_pos
    rw [hplace, Nat.mul_one, Nat.add_zero] at hentry
    exact hentry
  have hfirst : window[0]? = some 5 := by
    rw [hvalue 0 (by decide)]
    decide +kernel
  have hsecond : window[1]? = some 23 := by
    rw [hvalue 1 (by decide)]
    decide +kernel
  obtain ⟨p, q, rfl⟩ := List.length_eq_two.1 hlength
  obtain rfl : p = 5 := Option.some.inj hfirst
  obtain rfl : q = 23 := Option.some.inj hsecond
  exact ⟨t, plan, f', hflat, hplan, hrun, hresults⟩

end Indicial
