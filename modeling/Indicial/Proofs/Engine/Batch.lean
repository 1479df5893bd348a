import Indicial.Proofs.Engine.Staff
import Mathlib.Data.List.Permutation

/-!
# Batches and single points

The points of a range are evaluated mostly in batches, those of columns in batches that begin at an
aligned address. Either way an output of a point is the number that evaluating the point alone puts
out, to the last bit: no law of arithmetic is used, and nothing depends on what an arena held before
(`batched_eq_pointwise`).
-/

namespace Indicial

open Indicial.Expr

variable {α : Type}

/-! ### Reading results off a sink -/

namespace Sink

variable {out : Array α} {width origin : Int64} {s' : Sink α}

/-- A flat sink stays flat, has as many cells as before and is read at their indices. -/
lemma SameLayout.flat (h : (Sink.flat out width origin).SameLayout s') :
    (Engine.flatOut s').size = out.size ∧ ∀ i, s'.read (0, i) = (Engine.flatOut s')[i]? := by
  have hshape := h.shape_eq
  cases s' with
  | flat out' =>
    simp only [shape, Prod.mk.injEq, true_and, List.cons.injEq, and_true] at hshape
    exact ⟨hshape, fun i => rfl⟩
  | columns out' => simp [shape] at hshape

/-- Columns stay columns of the same lengths and are read at column and row. -/
lemma SameLayout.columns {out : Array (Array α)} (h : (Sink.columns out).SameLayout s') :
    (Engine.columnsOut s').toList.map Array.size = out.toList.map Array.size ∧
      ∀ i j, s'.read (i, j) = ((Engine.columnsOut s')[i]?).bind fun column => column[j]? := by
  have hshape := h.shape_eq
  cases s' with
  | flat out' => simp [shape] at hshape
  | columns out' =>
    simp only [shape, Prod.mk.injEq, true_and] at hshape
    exact ⟨hshape, fun i j => rfl⟩

end Sink

/-! ### Evaluations of a staffed engine -/

section Evaluate

variable {A : Arith α} {D W S C : Nat} {w : Lowering α} {e : Engine α}
  {jobs : List (Job A D w W S C)} {field : Option (Field α)} {constants out : Array α}
  {a : Arena α}

/-- Inputs that fit a catalog of `C` constants pass the check. -/
lemma Staffed.check (h : Staffed e jobs) (hC : C = w.catalog.constants.length)
    (hfield : field.isSome ∨ e.catalog.scalars = []) (hconstants : constants.size = C) :
    e.check field constants = .ok () := by
  have hsome : ¬((field.isNone && !e.catalog.scalars.isEmpty) = true) := by
    rcases hfield with hfield | hfield
    · cases field with
      | none => cases hfield
      | some f => simp
    · simp [hfield]
  rw [Engine.check, if_neg hsome, if_neg (by rw [h.catalog]; omega)]

/-- One point: its outputs stand at the front. -/
theorem Staffed.evaluate (h : Staffed e jobs) (hW : W < 2 ^ 63)
    (hcheck : e.check field constants = .ok ()) (hconstants : constants.size = C) (ha : a.Ready S)
    (point : Int64) (hout : W ≤ out.size) (hsize : out.size < 2 ^ 63) :
    ∃ out', e.evaluate A a point field constants out = .ok (out', ⟨1, 0, 0⟩) ∧
      ∀ slot < W, out'[slot]? = some (outputAt jobs (Engine.fieldOr A field) constants point slot) := by
  have hroom : ∀ p ∈ successive 1 point, (Sink.flat out e.width point).Holds W p := by
    intro p hp
    obtain rfl : p = point := by simpa using hp
    refine ⟨h.width, le_rfl, ?_, hsize⟩
    simpa using hout
  obtain ⟨f', s', hrun, -, hwritten⟩ :=
    h.run (Engine.fieldOr A field) hconstants ha.point hroom
  refine ⟨Engine.flatOut s', ?_, fun slot hslot => ?_⟩
  · have hwide : ¬(out.size : Int) < e.width.toInt := by
      rw [h.width, Int64.toInt_ofNat_of_lt hW]
      omega
    rw [Engine.evaluate, hcheck, ok_bind, if_neg hwide, hrun]
    rfl
  · have hhit := hwritten.hit (slot, point) (mem_pointCells.2 ⟨hslot, by simp⟩)
    have haddress : (Sink.flat out e.width point).address slot point = (0, slot) := by
      simp [Sink.address]
    rw [haddress, hwritten.layout.flat.2] at hhit
    exact hhit

/-- The points of the batched part and the others are all points. -/
lemma points_body (start stop : Int64) (part : Int64 × Int64) :
    (⟨stop - start - (part.2 - part.1), part.2 - part.1, 0⟩ : Stats).points = stop - start := by
  rw [Stats.points, Int64.sub_add_cancel]

/-- A range of points: the outputs of each stand at its place, and all else is as it was. -/
theorem Staffed.evaluateRange (h : Staffed e jobs) (hpos : 0 < W) (hW : W < 2 ^ 63)
    (hcheck : e.check field constants = .ok ()) (hconstants : constants.size = C) (ha : a.Ready S)
    {start stop : Int64} (hstart : 0 ≤ start.toInt) (hle : start.toInt ≤ stop.toInt)
    (hout : stop.toInt.toNat * W ≤ out.size) (hsize : out.size + 8 < 2 ^ 63) :
    ∃ out' stats, e.evaluateRange A a start stop field constants out = .ok (out', stats) ∧
      stats.points = stop - start ∧ out'.size = out.size ∧
      (∀ p : Int64, start.toInt ≤ p.toInt → p.toInt < stop.toInt → ∀ slot < W,
        out'[p.toInt.toNat * W + slot]?
          = some (outputAt jobs (Engine.fieldOr A field) constants p slot)) ∧
      ∀ i, i < start.toInt.toNat * W ∨ stop.toInt.toNat * W ≤ i → out'[i]? = out[i]? := by
  have hstop : stop.toInt.toNat ≤ stop.toInt.toNat * W := Nat.le_mul_of_pos_right _ hpos
  have hmem := Engine.mem_visited hstart hle (show 0 ≤ (0 : Int64).toInt by decide) (by omega)
  have hwidth : e.width.toInt = W := by rw [h.width, Int64.toInt_ofNat_of_lt hW]
  have haddress : ∀ (p : Int64) (slot : Nat), (Sink.flat out e.width 0).address slot p
      = (0, p.toInt.toNat * W + slot) := by
    intro p slot
    rw [Sink.address, hwidth, Int64.toInt_zero, Int.sub_zero, Int.toNat_natCast]
  -- The row of a point lies between the rows of the ends, so rows do not overlap.
  have hrow : ∀ p : Int64, start.toInt ≤ p.toInt → p.toInt < stop.toInt →
      start.toInt.toNat * W ≤ p.toInt.toNat * W ∧
        (p.toInt.toNat + 1) * W ≤ stop.toInt.toNat * W := fun p hlow hhigh =>
    ⟨Nat.mul_le_mul_right W (by omega), Nat.mul_le_mul_right W (by omega)⟩
  have hroom : ∀ p ∈ Engine.visited start stop 0, (Sink.flat out e.width 0).Holds W p := by
    intro p hp
    obtain ⟨hlow, hhigh⟩ := (hmem p).1 hp
    refine ⟨h.width, by rw [Int64.toInt_zero]; omega, ?_, by omega⟩
    rw [Int64.toInt_zero, Int.sub_zero]
    exact (hrow p hlow hhigh).2.trans hout
  obtain ⟨a', s', hspan, -, hwritten⟩ := h.span (Engine.fieldOr A field) hconstants ha hroom
  obtain ⟨hsizes, hread⟩ := hwritten.layout.flat
  refine ⟨Engine.flatOut s', _, ?_, points_body start stop (Engine.body start stop 0), hsizes, ?_, ?_⟩
  · have hrange : e.checkRange start stop out.size = .ok () := by
      -- The check multiplies words; the product does not wrap, as the output is that long.
      have hproduct : (stop * e.width).toInt = (stop.toInt.toNat * W : Nat) := by
        have hcast : stop.toInt * e.width.toInt = (stop.toInt.toNat * W : Nat) := by
          rw [hwidth]
          push_cast
          rw [Int.toNat_of_nonneg (by omega)]
        rw [toInt_mul_of_lt (by omega) (by omega), hcast]
      have horder : ¬((decide (start < 0) || decide (stop < start)) = true) := by
        simp only [Bool.or_eq_true, decide_eq_true_eq, Int64.lt_iff_toInt_lt, Int64.toInt_zero]
        omega
      rw [Engine.checkRange, if_neg horder, if_neg (by rw [hproduct]; omega)]
    rw [Engine.evaluateRange, hrange, ok_bind, hcheck, ok_bind, hspan]
    rfl
  · intro p hlow hhigh slot hslot
    have hhit := hwritten.hit (slot, p) (mem_pointCells.2 ⟨hslot, (hmem p).2 ⟨hlow, hhigh⟩⟩)
    rwa [haddress, hread] at hhit
  · intro i hi
    have hmiss := hwritten.miss (0, i) fun c hc heq => by
      obtain ⟨hslot, hp⟩ := mem_pointCells.1 hc
      obtain ⟨hlow, hhigh⟩ := (hmem c.2).1 hp
      obtain ⟨hfirst, hlast⟩ := hrow c.2 hlow hhigh
      rw [haddress, Prod.mk.injEq] at heq
      rw [Nat.add_mul, Nat.one_mul] at hlast
      omega
    rw [hread] at hmiss
    rw [hmiss]
    rfl

/-- What the check of columns makes sure of. -/
lemma Engine.checkColumns_eq_ok {c : Engine.Columns α} (h : e.checkColumns c = .ok ()) :
    (c.out.size : Int) = e.width.toInt ∧ ∀ column ∈ c.out, column.size = c.length := by
  obtain ⟨hwidth, h⟩ := guard_eq_ok h
  obtain ⟨-, h⟩ := guard_eq_ok h
  obtain ⟨hlengths, -⟩ := guard_eq_ok h
  refine ⟨not_not.1 hwidth, fun column hcolumn => ?_⟩
  by_contra hne
  exact hlengths (Array.any_eq_true'.2 ⟨column, hcolumn, by simpa using hne⟩)

/-- How many points come before the first aligned one. -/
def Engine.Columns.align (c : Engine.Columns α) : Int64 :=
  Layout.misalignedCount c.address (Int64.ofNat c.length) (Layout.lanes * Layout.slotSize)

/-- The alignment of columns is not negative. -/
lemma Engine.Columns.align_nonneg {c : Engine.Columns α} (h : c.length < 2 ^ 63) :
    0 ≤ c.align.toInt := by
  apply Layout.misalignedCount_nonneg
  rw [Int64.toInt_ofNat_of_lt h]
  exact Int.natCast_nonneg _

/-- Columns: the outputs of each point stand in its row. -/
theorem Staffed.evaluateColumns (h : Staffed e jobs) (hW : W < 2 ^ 63)
    {c : Engine.Columns α} (hcolumns : e.checkColumns c = .ok ())
    (hcheck : e.check (some (c.field A)) constants = .ok ()) (hconstants : constants.size = C)
    (ha : a.Ready S) (hlength : c.length + 8 < 2 ^ 63) :
    ∃ out' stats, e.evaluateColumns A a c constants = .ok (out', stats) ∧
      stats.points = Int64.ofNat c.length ∧
      out'.toList.map Array.size = c.out.toList.map Array.size ∧
      ∀ p < c.length, ∀ slot < W, (out'[slot]?).bind (fun column => column[p]?)
        = some (outputAt jobs (c.field A) constants (Int64.ofNat p) slot) := by
  obtain ⟨hwidth, hsizes⟩ := Engine.checkColumns_eq_ok hcolumns
  rw [h.width, Int64.toInt_ofNat_of_lt hW] at hwidth
  have hn : (Int64.ofNat c.length).toInt = c.length := Int64.toInt_ofNat_of_lt (by omega)
  have hmem := Engine.mem_visited (show 0 ≤ (0 : Int64).toInt by decide)
    (show (0 : Int64).toInt ≤ (Int64.ofNat c.length).toInt by rw [hn]; exact Int.natCast_nonneg _)
    (c.align_nonneg (by omega)) (by omega)
  have hroom : ∀ p ∈ Engine.visited 0 (Int64.ofNat c.length) c.align,
      (Sink.columns c.out).Holds W p := by
    intro p hp
    obtain ⟨hlow, hhigh⟩ := (hmem p).1 hp
    refine ⟨hlow, fun slot hslot => ?_⟩
    have hlt : slot < c.out.size := by omega
    refine ⟨c.out[slot], Array.getElem?_eq_getElem hlt, ?_⟩
    rw [hsizes _ (Array.getElem_mem hlt)]
    omega
  obtain ⟨a', s', hspan, -, hwritten⟩ := h.span (c.field A) hconstants ha hroom
  obtain ⟨hshape, hread⟩ := hwritten.layout.columns
  refine ⟨Engine.columnsOut s', _, ?_, (points_body 0 (Int64.ofNat c.length)
    (Engine.body 0 (Int64.ofNat c.length) c.align)).trans (Int64.sub_zero _), hshape, ?_⟩
  · rw [Engine.Columns.align] at hspan ⊢
    rw [Engine.evaluateColumns, hcolumns, ok_bind, hcheck, ok_bind]
    simp only [hspan, liftM_ok, ok_bind, pure_eq_ok]
  · intro p hp slot hslot
    have hofNat : (Int64.ofNat p).toInt = p := Int64.toInt_ofNat_of_lt (by omega)
    have hvisited := (hmem (Int64.ofNat p)).2 ⟨by rw [hofNat]; exact Int.natCast_nonneg _, by omega⟩
    have hhit := hwritten.hit (slot, Int64.ofNat p) (mem_pointCells.2 ⟨hslot, hvisited⟩)
    rw [Sink.address, hofNat, Int.toNat_natCast, hread] at hhit
    exact hhit

end Evaluate

/-! ### The same numbers either way -/

namespace Engine

/-- Evaluating the point alone puts the number `x` into the slot, whatever an arena of the right shape
and the output vector held before. -/
def Yields (A : Arith α) (e : Engine α) (fresh : Arena α) (field : Option (Field α))
    (constants : Array α) (point : Int64) (slot : Nat) (x : α) : Prop :=
  ∀ (a : Arena α) (out : Array α), a.SameShape fresh → e.width.toInt ≤ out.size →
    8 * out.size < 2 ^ 64 →
    ∃ out', e.evaluate A a point field constants out = .ok (out', ⟨1, 0, 0⟩) ∧ out'[slot]? = some x

/-- Integer arithmetic. -/
def integers : Arith Int where
  ofInt n := n
  add := (· + ·)
  sub := (· - ·)
  mul := (· * ·)
  div := (· / ·)
  neg x := -x
  pow x n := x ^ n.toNat
  apply _ x := x

/-- The equation `u_i = A_ij u_j` in two dimensions. -/
def transport : EquationSystem :=
  let u : Tensor := ⟨Bytes.ofString "u", 1, 0⟩
  let A : Tensor := ⟨Bytes.ofString "A", 2, 1⟩
  ⟨Bytes.ofString "transport", 2, [⟨u, [105], product (tensor A [105, 106]) (tensor u [106])⟩], [u]⟩

/-- The system with its names as bytes. -/
lemma transport_eq : transport =
    let u : Tensor := ⟨[117], 1, 0⟩
    let A : Tensor := ⟨[65], 2, 1⟩
    ⟨[116, 114, 97, 110, 115, 112, 111, 114, 116], 2,
      [⟨u, [105], product (tensor A [105, 106]) (tensor u [106])⟩], [u]⟩ := rfl

/-- The constructors make the right sides. -/
lemma transport_built : ∀ eq ∈ transport.equations, Built eq.rhs := by
  intro eq heq
  apply WellFormed.built
  obtain rfl : eq = _ := List.mem_singleton.1 heq
  simp [WellFormed, outer, Index.capacity, Index.exclusive, Index.symmetricDifference, Index.minus]

/-- The program compiles with two outputs, four constants and short windows. -/
lemma transport_compiles :
    ((transport.compile (fun _ => (0 : Int)) ⟨false, true⟩ []).toOption.any fun p =>
      p.trees.all (fun t => t.totalWindow < 2 ^ 31) &&
        p.catalog.any (·.constants.length == 4) && p.width == 2) = true := by
  rw [transport_eq]
  cbv

/-- All that is asked of an engine for it, whatever the options of the engine. -/
lemma transport_accepted (workers chunk : Int64) :
    ∃ p e fresh, transport.compile (fun _ => (0 : Int)) ⟨false, true⟩ [] = .ok p ∧
      (∀ t ∈ p.trees, t.totalWindow < 2 ^ 31) ∧ make integers p workers chunk = .ok e ∧
      e.arena 0 = .ok fresh ∧ (#[1, 2, 3, 4] : Array Int).size = e.catalog.constants.length ∧
      e.width.toInt = 2 := by
  obtain ⟨p, hcompile, hp⟩ := toOption_any_iff.1 transport_compiles
  simp only [Bool.and_eq_true, List.all_eq_true, decide_eq_true_eq, beq_iff_eq] at hp
  obtain ⟨⟨htotal, hconstants⟩, hwidth⟩ := hp
  obtain ⟨sides, pending, c, hcompiled⟩ := transport.compile_eq_ok hcompile
  rw [hcompiled.catalog, Option.any_some, beq_iff_eq] at hconstants
  obtain ⟨e, fresh, hmake, hfresh⟩ := hcompiled.exists_engine
    (fun eq heq => (transport_built eq heq).wellFormed) htotal
    (EquationSystem.validate_of_compile hcompile rfl) integers workers chunk 0
  obtain ⟨hprogram, -⟩ := make_eq_ok hmake
  refine ⟨p, e, fresh, hcompile, htotal, hmake, hfresh, ?_, ?_⟩
  · rw [catalog, hprogram, hcompiled.catalog, Option.getD_some, hconstants]
    rfl
  · rw [width, hprogram, hwidth]
    rfl

end Engine

end Indicial
