import Indicial.Proofs.Plan.Frame

/-!
# What each step does to storage

One lemma for each kind of step: run on a frame that shows `v`, it succeeds, and the frame shows `v`
with the window of the node overwritten. Operands lie below the window, at places `p k` and `q k` for
the `k`-th assignment, so nothing that is still to be read is written.

The maps enter only through what `IndexMap.get` returns and through the number of rounds.
-/

namespace Indicial

open Indicial.Frame

variable {α : Type} {A : Arith α} {f : Frame α} {W S o n a b N : Nat} {v : Nat → Nat → α}

/-- A constant that is there is read. -/
lemma constantValue_eq_ok {inputs : Inputs α} {e : Int32} (default : α) (hpos : 0 ≤ e.toInt)
    (hlt : e.toInt < inputs.constants.size) :
    Plan.constantValue inputs e = .ok ((inputs.constants[e.toInt.toNat]?).getD default) := by
  have hnat : e.toInt.toNat < inputs.constants.size := by omega
  have hneg : ¬e < 0 := by
    rw [Int32.lt_iff_toInt_lt, Int32.toInt_zero]
    omega
  rw [Plan.constantValue, if_neg hneg, Array.getElem?_eq_getElem hnat]
  rfl

namespace Plan

/-- An elementwise step leaves in its window what the operation makes of the entries of both operands.
-/
lemma runElementwise_shows (h : f.Shows W S v) (op : α → α → α) {right : IndexMap} {q : Nat → Nat}
    (hsmall : S < 2 ^ 63) (hS : o + n ≤ S) (ha : a + n ≤ o) (hb : b + n ≤ S)
    (hrounds : assignments [right] (Int64.ofNat n) = n)
    (hright : ∀ k < n, right.get k = .ok (q k : Nat) ∧ b + q k < o) :
    ∃ f', runElementwise op (Int64.ofNat o) (Int64.ofNat n) (Int64.ofNat a) (Int64.ofNat b) right f
        = .ok f' ∧
      f'.Shows W S (overwrite v o n fun k l => op (v (a + k) l) (v (b + q k) l)) := by
  rw [runElementwise, h.window hS hsmall, ok_bind, h.window (by omega) hsmall, ok_bind,
    h.window (by omega) hsmall, ok_bind, hrounds, Int64.toInt_ofNat_of_lt (by omega),
    Int64.toInt_ofNat_of_lt (by omega), Int64.toInt_ofNat_of_lt (by omega)]
  apply h.repeatM_window
  intro k hk f' hf'
  obtain ⟨hget, hq⟩ := hright k hk
  simp only [hget, ok_bind]
  refine hf'.eachLane (s := o + k) (by push_cast; rfl) (by omega) _ fun l hl g u hg hu => ?_
  rw [hg.read (s := a + k) (by push_cast; rfl) (by omega) hl, ok_bind,
    hg.read (s := b + q k) (by push_cast; rfl) (by omega) hl, ok_bind, hu, hu,
    overwrite_of_lt _ _ (by omega), overwrite_of_lt _ _ (by omega)]

/-- A contraction leaves in its window the gathered terms of all assignments. -/
lemma runContraction_shows (h : f.Shows W S v) (op : α → α → α) {own left right : IndexMap}
    {r p q : Nat → Nat} (hsmall : S < 2 ^ 63) (hS : o + n ≤ S) (ha : a < 2 ^ 63) (hb : b < 2 ^ 63)
    (hrounds : assignments [own, left, right] (Int64.ofNat n) = N)
    (hown : ∀ k < N, own.get k = .ok (r k : Nat) ∧ r k < n)
    (hleft : ∀ k < N, left.get k = .ok (p k : Nat) ∧ a + p k < o)
    (hright : ∀ k < N, right.get k = .ok (q k : Nat) ∧ b + q k < o) :
    ∃ f', runContraction A op (Int64.ofNat o) (Int64.ofNat n) (Int64.ofNat a) (Int64.ofNat b)
        own left right f = .ok f' ∧
      f'.Shows W S (overwrite v o n fun s l =>
        gather A N r (fun k => op (v (a + p k) l) (v (b + q k) l)) s) := by
  obtain ⟨f₁, hclear, hf₁⟩ := h.clear (A := A) hS hsmall
  rw [runContraction, h.window hS hsmall, ok_bind, hclear, ok_bind, hrounds,
    Int64.toInt_ofNat_of_lt ha, Int64.toInt_ofNat_of_lt hb,
    Int64.toInt_ofNat_of_lt (show o < 2 ^ 63 by omega)]
  apply repeatM_ok (P := fun k f' => f'.Shows W S (overwrite v o n fun s l =>
    gather A k r (fun k => op (v (a + p k) l) (v (b + q k) l)) s))
  · exact hf₁
  · intro k hk f' hf'
    obtain ⟨hgeto, hr⟩ := hown k hk
    obtain ⟨hgetp, hp⟩ := hleft k hk
    obtain ⟨hgetq, hq⟩ := hright k hk
    simp only [hgeto, hgetp, hgetq, ok_bind]
    apply Shows.gather_round hS hr hf' (by push_cast; rfl)
    intro l hl g u hg hu
    rw [hg.read (s := a + p k) (by push_cast; rfl) (by omega) hl, ok_bind,
      hg.read (s := b + q k) (by push_cast; rfl) (by omega) hl, ok_bind, hu _ hp, hu _ hq]

/-- A relabelling leaves in its window the gathered entries of its operand. -/
lemma runRelabel_shows (h : f.Shows W S v) {own left : IndexMap} {r p : Nat → Nat}
    (hsmall : S < 2 ^ 63) (hS : o + n ≤ S) (ha : a < 2 ^ 63)
    (hrounds : assignments [own, left] (Int64.ofNat n) = N)
    (hown : ∀ k < N, own.get k = .ok (r k : Nat) ∧ r k < n)
    (hleft : ∀ k < N, left.get k = .ok (p k : Nat) ∧ a + p k < o) :
    ∃ f', runRelabel A (Int64.ofNat o) (Int64.ofNat n) (Int64.ofNat a) own left f = .ok f' ∧
      f'.Shows W S (overwrite v o n fun s l => gather A N r (fun k => v (a + p k) l) s) := by
  obtain ⟨f₁, hclear, hf₁⟩ := h.clear (A := A) hS hsmall
  rw [runRelabel, h.window hS hsmall, ok_bind, hclear, ok_bind, hrounds,
    Int64.toInt_ofNat_of_lt ha, Int64.toInt_ofNat_of_lt (show o < 2 ^ 63 by omega)]
  apply repeatM_ok (P := fun k f' => f'.Shows W S (overwrite v o n fun s l =>
    gather A k r (fun k => v (a + p k) l) s))
  · exact hf₁
  · intro k hk f' hf'
    obtain ⟨hgeto, hr⟩ := hown k hk
    obtain ⟨hgetp, hp⟩ := hleft k hk
    simp only [hgeto, hgetp, ok_bind]
    apply Shows.gather_round hS hr hf' (by push_cast; rfl)
    intro l hl g u hg hu
    rw [hg.read (s := a + p k) (by push_cast; rfl) (by omega) hl, ok_bind, hu _ hp]

/-- A leaf leaves in its window the gathered scalars that it reads. -/
lemma runLeaf_shows (h : f.Shows W S v) {value : Int32 → Nat → Except Fault α} {ids : List Int32}
    {own : IndexMap} {r : Nat → Nat} {x : Nat → Nat → α} (hsmall : S < 2 ^ 63) (hS : o + n ≤ S)
    (hown : ∀ k < ids.length, own.get k = .ok (r k : Nat) ∧ r k < n)
    (hvalue : ∀ k e, ids[k]? = some e → ∀ l < W, value e l = .ok (x k l)) :
    ∃ f', runLeaf A value (Int64.ofNat o) (Int64.ofNat n) ids own f = .ok f' ∧
      f'.Shows W S (overwrite v o n fun s l => gather A ids.length r (x · l) s) := by
  obtain ⟨f₁, hclear, hf₁⟩ := h.clear (A := A) hS hsmall
  rw [runLeaf, h.window hS hsmall, ok_bind, hclear, ok_bind, Int64.toInt_ofNat_of_lt (by omega)]
  apply foldlM_zipIdx_ok
    (P := fun k (f' : Frame α) =>
      f'.Shows W S (overwrite v o n fun s l => gather A k r (x · l) s))
  · exact hf₁
  · intro k e he f' hf'
    obtain ⟨hget, hr⟩ := hown k (List.getElem?_eq_some_iff.1 he).1
    simp only [hget, ok_bind]
    apply Shows.gather_round hS hr hf' (by push_cast; rfl)
    intro l hl g u _ _
    rw [hvalue k e he l hl, ok_bind]

variable (inputs : Inputs α) (kind : Kind)

/-- A negation leaves in its window the negated entries of its operand. -/
lemma run_negate_shows (h : f.Shows W S v) (hsmall : S < 2 ^ 63) (hS : o + n ≤ S)
    (ha : a + n ≤ o) :
    ∃ f', (⟨kind, Int64.ofNat o, Int64.ofNat n, .negate (Int64.ofNat a)⟩ : Node α).run A inputs f
        = .ok f' ∧
      f'.Shows W S (overwrite v o n fun k l => A.neg (v (a + k) l)) := by
  simp only [Node.run]
  rw [h.window hS hsmall, ok_bind, h.window (by omega) hsmall, ok_bind,
    toNat_toInt_ofNat (by omega), Int64.toInt_ofNat_of_lt (by omega),
    Int64.toInt_ofNat_of_lt (by omega)]
  apply h.repeatM_window
  intro k hk f' hf'
  refine hf'.eachLane (s := o + k) (by push_cast; rfl) (by omega) _ fun l hl g u hg hu => ?_
  rw [hg.read (s := a + k) (by push_cast; rfl) (by omega) hl, ok_bind, hu,
    overwrite_of_lt _ _ (by omega)]

/-- Overwriting a window of one slot. -/
lemma overwrite_one (x : Nat → α) : overwrite v o 1 (fun _ l => x l) = Function.update v o x := by
  rw [← update_overwrite, overwrite_zero, Nat.add_zero]

/-- A power leaves in its slot the power of its operands. -/
lemma run_power_shows (h : f.Shows W S v) (hsmall : S < 2 ^ 63) (hS : o + 1 ≤ S) (ha : a + 1 ≤ o)
    (hb : b + 1 ≤ o) :
    ∃ f', (⟨kind, Int64.ofNat o, Int64.ofNat 1, .power (Int64.ofNat a) (Int64.ofNat b)⟩
        : Node α).run A inputs f = .ok f' ∧
      f'.Shows W S (overwrite v o 1 fun _ l => A.pow (v a l) (v b l)) := by
  have hone : (1 : Int64) = Int64.ofNat 1 := rfl
  simp only [Node.run]
  rw [hone, h.window hS hsmall, ok_bind, h.window (by omega) hsmall, ok_bind,
    h.window (by omega) hsmall, ok_bind, Int64.toInt_ofNat_of_lt (by omega),
    Int64.toInt_ofNat_of_lt (by omega), Int64.toInt_ofNat_of_lt (by omega), overwrite_one]
  refine h.eachLane rfl (by omega) _ fun l hl g u hg hu => ?_
  rw [hg.read (s := a) rfl (by omega) hl, ok_bind, hg.read (s := b) rfl (by omega) hl, ok_bind, hu,
    hu]

/-- A function leaves in its slot its value at the operand. -/
lemma run_apply_shows (h : f.Shows W S v) (func : Func) (hsmall : S < 2 ^ 63) (hS : o + 1 ≤ S)
    (ha : a + 1 ≤ o) :
    ∃ f', (⟨kind, Int64.ofNat o, Int64.ofNat 1, .apply func.code (Int64.ofNat a)⟩
        : Node α).run A inputs f = .ok f' ∧
      f'.Shows W S (overwrite v o 1 fun _ l => A.apply func (v a l)) := by
  have hone : (1 : Int64) = Int64.ofNat 1 := rfl
  have hcode : Func.ofCode func.code = .ok func := by cases func <;> rfl
  simp only [Node.run]
  rw [hone, h.window hS hsmall, ok_bind, h.window (by omega) hsmall, ok_bind,
    Int64.toInt_ofNat_of_lt (by omega), Int64.toInt_ofNat_of_lt (by omega), overwrite_one]
  refine h.eachLane rfl (by omega) _ fun l hl g u hg hu => ?_
  rw [hg.read (s := a) rfl (by omega) hl, ok_bind, hcode, ok_bind, hu]

/-- Filling leaves the values in the window. -/
lemma run_fill_shows (h : f.Shows W S v) {values : Array α} {x : Nat → α} (hsmall : S < 2 ^ 63)
    (hS : o + n ≤ S) (hsize : values.size = n) (hvalue : ∀ k < n, values[k]? = some (x k)) :
    ∃ f', (⟨kind, Int64.ofNat o, Int64.ofNat n, .fill values⟩ : Node α).run A inputs f = .ok f' ∧
      f'.Shows W S (overwrite v o n fun k _ => x k) := by
  simp only [Node.run]
  rw [h.window hS hsmall, ok_bind, Int64.toInt_ofNat_of_lt (by omega)]
  have hloop : ∃ f', values.toList.zipIdx.foldlM (fun f entry =>
        f.eachLane fun l f => f.write (o + entry.2) l entry.1) f = .ok f' ∧
      f'.Shows W S (overwrite v o values.toList.length fun k _ => x k) := by
    apply foldlM_zipIdx_ok
      (P := fun k (f' : Frame α) => f'.Shows W S (overwrite v o k fun k _ => x k))
    · rw [overwrite_zero]
      exact h
    · intro k y hy f' hf'
      have hk : k < n := by
        have := (List.getElem?_eq_some_iff.1 hy).1
        rw [Array.length_toList] at this
        omega
      have hyx : x k = y := by
        have := hvalue k hk
        rw [← Array.getElem?_toList, hy] at this
        exact (Option.some.inj this).symm
      rw [← update_overwrite, ← hyx]
      exact hf'.eachLane (s := o + k) (by push_cast; rfl) (by omega) _ fun l _ g u _ _ => rfl
  rwa [Array.length_toList, hsize] at hloop

end Plan

end Indicial
