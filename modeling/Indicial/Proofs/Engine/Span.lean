import Indicial.Proofs.Engine.Jobs

/-!
# Ranges of points

A range of points is evaluated in three parts: single points, whole batches, and single points again.
However the batches are aligned, the parts visit each point of the range once and in order
(`visited_eq`). So a staffed engine writes all outputs of all points of the range (`Staffed.span`).
-/

namespace Indicial

variable {α : Type} {start stop align : Int64}

/-! ### Points in order -/

/-- There are no points without any. -/
@[simp] lemma successive_zero (p : Int64) : successive 0 p = [] := rfl

/-- One point is the first one. -/
@[simp] lemma successive_one (p : Int64) : successive 1 p = [p] := by
  simp [successive]

/-- The points behind `m` points begin `m` later. -/
lemma successive_add (m n : Nat) (p : Int64) :
    successive (m + n) p = successive m p ++ successive n (p + Int64.ofNat m) := by
  rw [successive, List.range_add, List.map_append, List.map_map, successive, successive]
  congr 2
  funext k
  rw [Function.comp, Int64.ofNat_add, Int64.add_assoc]

/-- The points of as many steps. -/
lemma flatMap_successive (step count : Nat) (p : Int64) :
    ((List.range count).map fun k => p + Int64.ofNat k * Int64.ofNat step).flatMap (successive step)
      = successive (step * count) p := by
  induction count with
  | zero => rfl
  | succ count ih =>
    rw [List.range_succ, List.map_append, List.flatMap_append, ih, Nat.mul_succ, successive_add,
      Nat.mul_comm step, Int64.ofNat_mul]
    simp

/-- Points that follow one another do not wrap around below the end of the words. -/
lemma toInt_of_mem_successive {n : Nat} {p q : Int64} (hp : 0 ≤ p.toInt)
    (hfit : p.toInt + n < 2 ^ 63) (hq : q ∈ successive n p) :
    p.toInt ≤ q.toInt ∧ q.toInt < p.toInt + n := by
  obtain ⟨k, hk, rfl⟩ := List.mem_map.1 hq
  rw [List.mem_range] at hk
  have hofNat : (Int64.ofNat k).toInt = k := Int64.toInt_ofNat_of_lt (by omega)
  rw [toInt_add_of_lt (by omega) (by omega), hofNat]
  omega

/-- They are all points from the first one up to the end. -/
lemma mem_successive {n : Nat} {p q : Int64} (hp : 0 ≤ p.toInt) (hfit : p.toInt + n < 2 ^ 63) :
    q ∈ successive n p ↔ p.toInt ≤ q.toInt ∧ q.toInt < p.toInt + n := by
  refine ⟨toInt_of_mem_successive hp hfit, fun ⟨hle, hlt⟩ => ?_⟩
  refine List.mem_map.2 ⟨(q.toInt - p.toInt).toNat, List.mem_range.2 (by omega), ?_⟩
  have hofNat : (Int64.ofNat (q.toInt - p.toInt).toNat).toInt = (q.toInt - p.toInt).toNat :=
    Int64.toInt_ofNat_of_lt (by omega)
  apply Int64.toInt_inj.1
  rw [toInt_add_of_lt (by omega) (by omega), hofNat]
  omega

namespace Engine

/-- Steps that end where the range ends. -/
lemma flatMap_pointsFrom {step count : Nat} (hstep : 0 < step) (hsmall : step < 2 ^ 63)
    (hstop : stop.toInt = start.toInt + step * count) :
    (pointsFrom start stop (Int64.ofNat step)).flatMap (successive step)
      = successive (step * count) start := by
  have hcount : (stop.toInt - start.toInt + (Int64.ofNat step).toInt - 1)
      / (Int64.ofNat step).toInt = count := by
    have hnum : stop.toInt - start.toInt + (step : Int) - 1 = (step - 1) + step * count := by omega
    rw [Int64.toInt_ofNat_of_lt hsmall, hnum, Int.add_mul_ediv_left _ _ (by omega),
      Int.ediv_eq_zero_of_lt (by omega) (by omega), Int.zero_add]
  rw [pointsFrom]
  simp only [hcount, Int.toNat_natCast]
  exact flatMap_successive step count start

/-- The batched part lies in the range, and it is a whole number of batches. -/
lemma body_bounds (hstart : 0 ≤ start.toInt) (hle : start.toInt ≤ stop.toInt)
    (halign : 0 ≤ align.toInt) (hfit : stop.toInt + 8 < 2 ^ 63) :
    ∃ count : Nat,
      start.toInt ≤ (body start stop align).1.toInt ∧
      (body start stop align).2.toInt = (body start stop align).1.toInt + 4 * count ∧
      (body start stop align).2.toInt ≤ stop.toInt := by
  have hlanes : Layout.lanes.toInt = 4 := rfl
  have hmod : (align % Layout.lanes).toInt = align.toInt % 4 := by
    rw [Int64.toInt_mod, hlanes, Int.tmod_eq_emod_of_nonneg halign]
  have hlow := Int.emod_nonneg align.toInt (show (4 : Int) ≠ 0 by decide)
  have hhigh := Int.emod_lt_of_pos align.toInt (show (0 : Int) < 4 by decide)
  have hshift : (Layout.lanes - align % Layout.lanes).toInt = 4 - align.toInt % 4 := by
    rw [toInt_sub_of_lt (by omega) (by omega), hlanes, hmod]
  rw [body]
  simp only
  generalize Layout.lanes - align % Layout.lanes = shift at hshift
  have hfrom : (start + shift).toInt = start.toInt + shift.toInt :=
    toInt_add_of_lt (by omega) (by omega)
  have hto : (stop + shift).toInt = stop.toInt + shift.toInt :=
    toInt_add_of_lt (by omega) (by omega)
  have hnonneg : 0 ≤ (start + shift).toInt := by omega
  have horder : (start + shift).toInt ≤ (stop + shift).toInt := by omega
  obtain ⟨count, hfirst, hlast, hend⟩ := Layout.splitRange_bounds hnonneg horder
    (show 0 < Layout.lanes.toInt by decide) (by omega)
  rw [hlanes] at hlast
  refine ⟨count, ?_, ?_, ?_⟩
  · rw [toInt_sub_of_lt (by omega) (by omega)]
    omega
  · rw [toInt_sub_of_lt (by omega) (by omega), toInt_sub_of_lt (by omega) (by omega)]
    omega
  · rw [toInt_sub_of_lt (by omega) (by omega)]
    omega

/-- The points that `span` evaluates, in order: each frame brings the points of its lanes. -/
def visited (start stop align : Int64) : List Int64 :=
  let (first, last) := body start stop align
  (pointsFrom start first 1).flatMap (successive 1)
    ++ (pointsFrom first last Layout.lanes).flatMap (successive 4)
    ++ (pointsFrom last stop 1).flatMap (successive 1)

/-- The parts of a range visit each point once, in order. -/
theorem visited_eq (hstart : 0 ≤ start.toInt) (hle : start.toInt ≤ stop.toInt)
    (halign : 0 ≤ align.toInt) (hfit : stop.toInt + 8 < 2 ^ 63) :
    visited start stop align = successive (stop.toInt - start.toInt).toNat start := by
  obtain ⟨count, hfirst, hlast, hend⟩ := body_bounds hstart hle halign hfit
  rw [visited]
  simp only
  generalize (body start stop align).1 = first at *
  generalize (body start stop align).2 = last at *
  have hbefore : (pointsFrom start first 1).flatMap (successive 1)
      = successive (first.toInt - start.toInt).toNat start := by
    rw [← Nat.one_mul (first.toInt - start.toInt).toNat]
    exact flatMap_pointsFrom (by decide) (by decide) (by omega)
  have hbatches : (pointsFrom first last Layout.lanes).flatMap (successive 4)
      = successive (4 * count) first :=
    flatMap_pointsFrom (by decide) (by decide) (by omega)
  have hafter : (pointsFrom last stop 1).flatMap (successive 1)
      = successive (stop.toInt - last.toInt).toNat last := by
    rw [← Nat.one_mul (stop.toInt - last.toInt).toNat]
    exact flatMap_pointsFrom (by decide) (by decide) (by omega)
  have hstep : ∀ {p q : Int64} {n : Nat}, 0 ≤ p.toInt → q.toInt = p.toInt + n →
      q = p + Int64.ofNat n := by
    intro p q n hp hq
    have hbound := q.toInt_lt
    have hofNat : (Int64.ofNat n).toInt = n := Int64.toInt_ofNat_of_lt (by omega)
    apply Int64.toInt_inj.1
    rw [toInt_add_of_lt (by omega) (by omega), hofNat, hq]
  have hsplit : (stop.toInt - start.toInt).toNat
      = (first.toInt - start.toInt).toNat + 4 * count + (stop.toInt - last.toInt).toNat := by omega
  rw [hbefore, hbatches, hafter, hsplit, successive_add, successive_add]
  rw [← hstep (q := first) hstart (by omega), ← hstep (q := last) hstart (by omega)]

/-- A span visits the points from start to stop and no others. -/
lemma mem_visited (hstart : 0 ≤ start.toInt) (hle : start.toInt ≤ stop.toInt)
    (halign : 0 ≤ align.toInt) (hfit : stop.toInt + 8 < 2 ^ 63) (p : Int64) :
    p ∈ visited start stop align ↔ start.toInt ≤ p.toInt ∧ p.toInt < stop.toInt := by
  rw [visited_eq hstart hle halign hfit, mem_successive hstart (by omega)]
  omega

end Engine

/-! ### Evaluating a range -/

/-- Both frames of an arena have room for `S` slots. -/
structure Arena.Ready (a : Arena α) (S : Nat) : Prop where
  point : ∃ v, a.point.Shows 1 S v
  batch : ∃ v, a.batch.Shows 4 S v

section Span

variable {A : Arith α} {D W S C : Nat} {w : Lowering α} {e : Engine α}
  {jobs : List (Job A D w W S C)} {constants : Array α} {a : Arena α} {s : Sink α}

/-- All outputs of all points of a range are written. -/
theorem Staffed.span (h : Staffed e jobs) (field : Field α) (hconstants : constants.size = C)
    (ha : a.Ready S) (hroom : ∀ p ∈ Engine.visited start stop align, s.Holds W p) :
    ∃ a' s', e.span A field constants start stop align a s = .ok (a', s',
        ⟨stop - start - ((Engine.body start stop align).2 - (Engine.body start stop align).1),
          (Engine.body start stop align).2 - (Engine.body start stop align).1, 0⟩) ∧ a'.Ready S ∧
      Sink.Written W (outputAt jobs field constants)
        (pointCells W (Engine.visited start stop align)) s s' := by
  rw [Engine.visited] at hroom ⊢
  simp only [List.mem_append] at hroom ⊢
  generalize hfirst : (Engine.body start stop align).1 = first at *
  generalize hlast : (Engine.body start stop align).2 = last at *
  obtain ⟨f₁, s₁, hrun₁, hf₁, hwritten₁⟩ := h.runAll field hconstants
    (Engine.pointsFrom start first 1) ha.point fun p hp => hroom p (.inl (.inl hp))
  obtain ⟨f₂, s₂, hrun₂, hf₂, hwritten₂⟩ := h.runAll (s := s₁) field hconstants
    (Engine.pointsFrom first last Layout.lanes) ha.batch fun p hp => by
      rw [hwritten₁.layout.holds_eq]
      exact hroom p (.inl (.inr hp))
  obtain ⟨f₃, s₃, hrun₃, hf₃, hwritten₃⟩ := h.runAll (s := s₂) field hconstants
    (Engine.pointsFrom last stop 1) hf₁ fun p hp => by
      rw [hwritten₂.layout.holds_eq, hwritten₁.layout.holds_eq]
      exact hroom p (.inr hp)
  refine ⟨⟨f₃, f₂⟩, s₃, ?_, ⟨hf₃, hf₂⟩, ?_⟩
  · rw [Engine.span]
    simp only [hfirst, hlast, hrun₁, hrun₂, hrun₃, ok_bind, pure_eq_ok]
  · rw [pointCells_append, pointCells_append]
    exact (hwritten₁.trans hwritten₂).trans hwritten₃

end Span

end Indicial
