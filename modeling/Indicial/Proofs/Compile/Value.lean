import Indicial.Proofs.Compile
import Indicial.Proofs.Expr.Exact

/-!
# The value of what is compiled

Under an exact interpretation, lowering keeps values in either mode: for every assignment of the labels
of an equation there is a pending expression with a component that has the value of the expanded right
side, and its target is the slot of the assignment in the block of the equation (`Compiled.delivers`). In
scalar mode that is a simplified component, and otherwise the component of the right side at the
position of the assignment over its own labels.
-/

namespace Indicial

open Indicial.Expr Odometer Indicial.Valuation

/-- Whether no literals are folded into a floating-point number when the system is compiled: at the
expanded right sides and, in scalar mode, at their components. -/
def EquationSystem.foldsExactly (s : EquationSystem) (scalarize : Bool) : Bool :=
  s.equations.all fun eq => (eq.rhs.expand s.isConstant).toOption.all fun e =>
    e.simplifiesExactly && (!scalarize || e.simplify.toOption.all fun side =>
      (visits eq.order.length s.radix).all fun ds =>
        (eval s.isConstant s.dim side (Assignment.empty.setAll eq.order ds)).toOption.all
          simplifiesExactly)

section Value

variable {K : Type} [ExactNumbers K] {I : Interpretation K} {scalarize : Bool} {s : EquationSystem}
  {eq : Equation} {e side : Expr}

/-- Folding literals is exact in expanded right sides. -/
lemma EquationSystem.foldsExactly_expanded (h : s.foldsExactly scalarize = true)
    (heq : eq ∈ s.equations) (hexpand : eq.rhs.expand s.isConstant = .ok e) :
    e.simplifiesExactly = true := by
  have hall := toOption_all_iff.1 (List.all_eq_true.1 h eq heq) e hexpand
  exact (Bool.and_eq_true_iff.1 hall).1

/-- Folding literals is exact in each component of an expanded right side. -/
lemma EquationSystem.foldsExactly_component (h : s.foldsExactly true = true)
    (heq : eq ∈ s.equations) (hexpand : eq.rhs.expand s.isConstant = .ok e)
    (hsimplify : e.simplify = .ok side) {ds : List Nat} (hds : ds ∈ visits eq.order.length s.radix)
    {m : Expr}
    (hm : eval s.isConstant s.dim side (Assignment.empty.setAll eq.order ds) = .ok m) :
    m.simplifiesExactly = true := by
  have hall := toOption_all_iff.1 (List.all_eq_true.1 h eq heq) e hexpand
  have hside := toOption_all_iff.1 (Bool.and_eq_true_iff.1 hall).2 side hsimplify
  exact toOption_all_iff.1 (List.all_eq_true.1 hside ds hds) m hm

/-- A component of an expression has a target, and there its value. -/
def Compile.Pending.Delivers (I : Interpretation K) (D : Nat) (k : Compile.Pending) (slot : Nat)
    (x : K) : Prop :=
  ∃ τ : Valuation, (∀ c ∈ k.expr.outer, τ c < D) ∧
    k.targets[place D (k.expr.outer.map τ)]? = some (Int32.ofNat slot) ∧ k.expr.value I D τ = x

namespace Compile

variable {number base D q : Nat} {ks : List Pending}

/-- Lowering an equation keeps the value of every component. -/
theorem lower_value (hI : I.ExactPowers) (hreads : I.ReadsScalars s.isConstant)
    (hdim : s.dim = Int64.ofNat D) (hD : 0 < D) (hle : D ≤ 16) (hside : side.WellFormed)
    (hx : side.exactLiterals = true)
    (hfold : scalarize = true → ∀ ds ∈ visits eq.order.length D, ∀ m,
      eval s.isConstant s.dim side (Assignment.empty.setAll eq.order ds) = .ok m →
        m.simplifiesExactly = true)
    (h : lower scalarize s number eq side (Int64.ofNat base) = .ok ks)
    (hq : q < D ^ eq.order.length) :
    ∃ k ∈ ks, k.Delivers I D (base + q)
      (side.value I D (ofDigits eq.order (digits D eq.order.length q))) := by
  have hlt := digits_lt hq
  have hlen : (digits D eq.order.length q).length = eq.order.length := length_digits ..
  have hσ : ∀ c, ofDigits eq.order (digits D eq.order.length q) c < D := ofDigits_lt hD hlt
  obtain ⟨hperm, ⟨hscalarize, parts, hparts, rfl⟩ | ⟨-, rfl⟩⟩ :=
    lower_cases hdim hD (by omega) hside h
  · -- With one kernel for each component, the component at `q` is the `q`-th part.
    have hvisit := getElem?_visits hD hq
    obtain ⟨part, hpart, m, hm, hsimplify⟩ := exists_of_getElem_left hparts hvisit
    obtain ⟨-, -, houter⟩ := part_shape ⟨m, hm, hsimplify⟩
    refine ⟨⟨number, part, [Int32.ofNat (base + q)]⟩, ?_, fun _ => 0, ?_, ?_, ?_⟩
    · exact List.mem_map.2 ⟨(part, q), List.mem_zipIdx_iff_getElem?.2 hpart, rfl⟩
    · simp [houter]
    · simp [houter, place]
    · have hmfold := hfold hscalarize _ (List.mem_of_getElem? hvisit) m hm
      rw [hdim] at hm
      exact part_value hI hreads hD (by omega) hside hx hperm hq hm hmfold hsimplify _
  · refine ⟨_, List.mem_singleton_self _, ofDigits eq.order (digits D eq.order.length q),
      fun c _ => hσ c, ?_, rfl⟩
    have hnodup : eq.order.Nodup := hperm.nodup_iff.2 hside.nodup_outer
    -- With one kernel for all, the component map leads the row of the side to the slot `q`.
    have hplace : reindex D side.outer eq.order
        (place D (side.outer.map (ofDigits eq.order (digits D eq.order.length q)))) = q := by
      rw [reindex_place hside.nodup_outer (fun c _ => hσ c) fun c hc => hperm.mem_iff.1 hc,
        map_ofDigits hnodup hlen, place_digits hq]
    have hrow : place D (side.outer.map (ofDigits eq.order (digits D eq.order.length q)))
        < D ^ side.outer.length := place_map_lt fun c _ => hσ c
    simp [hrow, hplace]

end Compile

namespace EquationSystem

variable {value : Literal → K} {p : Program K} {sides : List Expr} {pending : List Compile.Pending}
  {c : Catalog} {j q : Nat}

/-- Whatever the mode, some pending expression delivers the value of the expanded right side. -/
theorem Compiled.delivers (h : s.Compiled value scalarize p sides pending c)
    (hrhs : ∀ eq ∈ s.equations, eq.rhs.WellFormed)
    (hx : ∀ eq ∈ s.equations, eq.rhs.exactLiterals = true)
    (hfold : s.foldsExactly scalarize = true) (hI : I.ExactPowers)
    (hreads : I.ReadsScalars s.isConstant) (heq : s.equations[j]? = some eq)
    (hq : q < s.radix ^ eq.order.length) :
    ∃ e, eq.rhs.expand s.isConstant = .ok e ∧ ∃ k ∈ pending,
      k.Delivers I s.radix (Compile.start s.radix s.equations j + q)
        (e.value I s.radix (ofDigits eq.order (digits s.radix eq.order.length q))) := by
  obtain ⟨hdim, hpos, hle⟩ := radix_bounds h.validate
  have hmem : eq ∈ s.equations := List.mem_of_getElem? heq
  obtain ⟨side, hside, e, hexpand, hsimplify⟩ :=
    exists_of_getElem_left (Compile.rightSides_eq_ok h.rightSides) heq
  have hentry : (s.equations.zip sides)[j]? = some (eq, side) :=
    List.getElem?_zip_eq_some.2 ⟨heq, hside⟩
  obtain ⟨number, ks, hlower, hks⟩ := (h.exists_lower hrhs).2 j eq side hentry
  obtain ⟨hwf, hmark⟩ := expand_wellFormed (hrhs eq hmem) hexpand
  obtain ⟨hexact, hagrees⟩ := simplify_agrees hI hwf hmark
    (expand_exactLiterals (hx eq hmem) hexpand)
    (foldsExactly_expanded hfold hmem hexpand) hsimplify
  obtain ⟨k, hk, hdelivers⟩ := Compile.lower_value hI hreads hdim hpos hle
    (h.side_shape hrhs (List.mem_of_getElem? hentry)).1 hexact
    (fun hscalarize ds hds m hm => by
      rw [hscalarize] at hfold
      exact foldsExactly_component hfold hmem hexpand hsimplify hds hm) hlower hq
  rw [hagrees.value_eq] at hdelivers
  exact ⟨e, hexpand, k, hks k hk, hdelivers⟩

end EquationSystem

end Value

/-! ### The name of a component -/

namespace Output

/-- The digits of a position in a block are those of its assignment. -/
lemma digits_ofNat {D r q : Nat} (hD : D < 2 ^ 63) (hq : q < D ^ r) (hsmall : q < 2 ^ 63) :
    Output.digits (Int64.ofNat D) r (Int64.ofNat q) = (Odometer.digits D r q).map Int64.ofNat := by
  induction r generalizing q with
  | zero => rfl
  | succ r ih =>
    have hlt : q / D < D ^ r := Nat.div_lt_of_lt_mul (by rwa [pow_succ, mul_comm] at hq)
    rw [Output.digits, ← Int64.ofNat_div hsmall hD, ← Int64.ofNat_mod hsmall hD,
      ih hlt ((Nat.div_le_self q D).trans_lt hsmall), Odometer.digits_concat hq, List.map_append,
      List.map_singleton]

/-- The name of a component has the numbers of its assignment. -/
theorem key_eq_ok {o : Output} {D r q : Nat} (hD : D ≤ 16) (hr : r ≤ 8)
    (horder : o.order = Int64.ofNat r) (hq : q < D ^ r) :
    o.key (Int64.ofNat D) (Int64.ofNat q)
      = .ok (ScalarRef.keyOf o.name ⟨(Odometer.digits D r q).map Nat.toUInt8⟩ Coord.empty) := by
  have hsmall : q < 2 ^ 63 := hq.trans ((Layout.components_le hD hr).trans_lt (by decide))
  have hints : (Output.digits (Int64.ofNat D) r (Int64.ofNat q)).map Int64.toInt
      = (Odometer.digits D r q).map Int.ofNat := by
    rw [digits_ofNat (by omega) hq hsmall, List.map_map]
    apply List.map_congr_left
    intro d hd
    have hlt := Odometer.digits_lt hq d hd
    exact Int64.toInt_ofNat_of_lt (by omega)
  have hentries : ((Odometer.digits D r q).map Int.ofNat).mapM Coord.entry
      = .ok ((Odometer.digits D r q).map Nat.toUInt8) := by
    rw [mapM_eq_ok_iff, List.forall₂_map_left_iff, List.forall₂_map_right_iff]
    refine List.forall₂_same.2 fun d hd => ?_
    have hlt := Odometer.digits_lt hq d hd
    have hin : (decide (0 ≤ (d : Int)) && decide ((d : Int) < 256)) = true := by
      simp only [Bool.and_eq_true, decide_eq_true_eq]
      omega
    exact if_pos hin
  have hlength : ((Odometer.digits D r q).map Int.ofNat).length ≤ Coord.capacity := by
    rw [List.length_map, Odometer.length_digits]
    exact hr
  rw [key, horder, toNat_toInt_ofNat (by omega), hints, Coord.ofInts, if_pos hlength, hentries]
  rfl

end Output

end Indicial
