import Indicial.Compile
import Indicial.Proofs.ComponentMap
import Indicial.Proofs.Expr.Component
import Indicial.Proofs.Expr.Expand
import Indicial.Proofs.Expr.Simplify
import Indicial.Proofs.Program

/-!
# Compiled systems

What is known of a program because it was compiled: each kernel is the tree of an expression, and that
expression is a simplified right side or a component of one (`lower_cases`). In either case it is well
formed and has no marks for derivatives left (`Compiled.shape`), as the right sides of the system are
well formed.

The blocks of the equations follow each other in the output vector. The targets of the kernels of an
equation are the slots of its block, each of them once: in scalar mode they run through the block, and
otherwise the component map permutes it (`lower_targets`). So the targets of all kernels are all slots
(`Compiled.targets`).
-/

namespace Indicial

open Indicial.Expr

variable {α : Type}

/-- How a program came to be compiled. -/
structure EquationSystem.Compiled (value : Literal → α) (scalarize : Bool) (s : EquationSystem)
    (p : Program α) (sides : List Expr) (pending : List Compile.Pending) (c : Catalog) : Prop where
  validate : s.validate = .ok ()
  rightSides : Compile.rightSides s = .ok sides
  lowered : Compile.lowerAll scalarize s 0 0 (s.equations.zip sides) = .ok pending
  dim : p.dim = s.dim
  catalog : p.catalog = some c
  references : ∃ refs, List.Forall₂ (fun k rs => Compile.refs s k.expr = .ok rs) pending refs ∧
    c = .ofRefs refs.flatten
  outputs : p.outputs = Compile.outputs s.dim 0 s.equations
  kernels : List.Forall₂ (fun k kernel => kernel.targets = k.targets ∧
    ∃ t, kernel.tree = some t ∧ Expr.flatten ⟨s.dim, s.isConstant, c, value⟩ k.expr = .ok t)
    pending p.kernels

section Inversion

variable {value : Literal → α} {options : Compile.Options} {id : Bytes} {s : EquationSystem}
  {p : Program α}

/-- What a compiler run that succeeds went through: its right sides, its pending kernels and its
catalog. -/
lemma EquationSystem.compile_eq_ok (h : s.compile value options id = .ok p) :
    ∃ sides pending c, s.Compiled value options.scalarize p sides pending c := by
  obtain ⟨⟨⟩, hvalidate, h⟩ := bind_eq_ok_iff.1 h
  obtain ⟨sides, hsides, h⟩ := bind_eq_ok_iff.1 h
  obtain ⟨pending, hpending, h⟩ := bind_eq_ok_iff.1 h
  obtain ⟨refs, hrefs, h⟩ := bind_eq_ok_iff.1 h
  obtain ⟨kernels, hkernels, h⟩ := bind_eq_ok_iff.1 h
  rw [liftM_eq_ok_iff] at hsides hpending
  have hread := (mapM_eq_ok_iff.1 hrefs).imp
    (S := fun k rs => Compile.refs s (Compile.Pending.expr k) = .ok rs) fun k rs hk => liftM_eq_ok_iff.1 hk
  have hforall := (mapM_eq_ok_iff.1 hkernels).imp (S := fun k kernel => kernel.targets = k.targets ∧
    ∃ t, kernel.tree = some t ∧
      Expr.flatten ⟨s.dim, s.isConstant, .ofRefs refs.flatten, value⟩ k.expr = .ok t)
    fun k kernel hk => by
      obtain ⟨t, ht, hk⟩ := bind_eq_ok_iff.1 hk
      rw [liftM_eq_ok_iff] at ht
      cases hk
      exact ⟨rfl, t, rfl, ht⟩
  refine ⟨sides, pending, .ofRefs refs.flatten, ?_⟩
  split at h
  · obtain ⟨⟨⟩, -, h⟩ := bind_eq_ok_iff.1 h
    cases h
    exact ⟨hvalidate, hsides, hpending, rfl, rfl, ⟨refs, hread, rfl⟩, rfl, hforall⟩
  · cases h
    exact ⟨hvalidate, hsides, hpending, rfl, rfl, ⟨refs, hread, rfl⟩, rfl, hforall⟩

/-- A program that is checked at the end has passed. -/
lemma EquationSystem.validate_of_compile (h : s.compile value options id = .ok p)
    (hoption : options.validate = true) : p.validate = .ok () := by
  obtain ⟨⟨⟩, -, h⟩ := bind_eq_ok_iff.1 h
  obtain ⟨sides, -, h⟩ := bind_eq_ok_iff.1 h
  obtain ⟨pending, -, h⟩ := bind_eq_ok_iff.1 h
  obtain ⟨refs, -, h⟩ := bind_eq_ok_iff.1 h
  obtain ⟨kernels, -, h⟩ := bind_eq_ok_iff.1 h
  rw [if_pos hoption] at h
  obtain ⟨⟨⟩, hvalid, h⟩ := bind_eq_ok_iff.1 h
  cases h
  exact hvalid

end Inversion

/-- A system is compiled, without checks at the end, when every pass succeeds. -/
lemma EquationSystem.exists_compile {value : Literal → α} {scalarize : Bool} {s : EquationSystem}
    {sides : List Expr} {pending : List Compile.Pending} {refs : List (List ScalarRef)}
    (hvalidate : s.validate = .ok ()) (hsides : Compile.rightSides s = .ok sides)
    (hlowered : Compile.lowerAll scalarize s 0 0 (s.equations.zip sides) = .ok pending)
    (hrefs : List.Forall₂ (fun k rs => Compile.refs s k.expr = .ok rs) pending refs)
    (hflat : ∀ k ∈ pending, ∃ t,
      Expr.flatten ⟨s.dim, s.isConstant, .ofRefs refs.flatten, value⟩ k.expr = .ok t) (id : Bytes) :
    ∃ p, s.compile value ⟨scalarize, false⟩ id = .ok p ∧
      s.Compiled value scalarize p sides pending (.ofRefs refs.flatten) := by
  have hlift : pending.mapM (fun k => (liftM (Compile.refs s k.expr) : Except Error _)) = .ok refs :=
    mapM_eq_ok_iff.2 (hrefs.imp fun k rs h => by rw [h, liftM_ok])
  have hkernels : ∀ k ∈ pending, ∃ kernel, (do
      let t ← liftM (Expr.flatten ⟨s.dim, s.isConstant, .ofRefs refs.flatten, value⟩ k.expr)
      return (⟨Int64.ofNat k.equation, k.targets, some t⟩ : Kernel α) : Except Error (Kernel α))
        = .ok kernel := by
    intro k hk
    obtain ⟨t, ht⟩ := hflat k hk
    rw [ht, liftM_ok, ok_bind]
    exact ⟨_, rfl⟩
  obtain ⟨kernels, hkernels⟩ := exists_mapM_eq_ok hkernels
  have hcompile : ∃ p, s.compile value ⟨scalarize, false⟩ id = .ok p := by
    rw [EquationSystem.compile, hvalidate, ok_bind, hsides, liftM_ok, ok_bind, hlowered, liftM_ok,
      ok_bind, hlift, ok_bind]
    dsimp only
    rw [hkernels, ok_bind]
    exact ⟨_, rfl⟩
  obtain ⟨p, hcompile⟩ := hcompile
  obtain ⟨sides', pending', c, h⟩ := s.compile_eq_ok hcompile
  obtain rfl : sides = sides' := Except.ok.inj (hsides.symm.trans h.rightSides)
  obtain rfl : pending = pending' := Except.ok.inj (hlowered.symm.trans h.lowered)
  obtain ⟨refs', hrefs', rfl⟩ := h.references
  obtain rfl : refs = refs' :=
    Except.ok.inj ((mapM_eq_ok_iff.2 hrefs).symm.trans (mapM_eq_ok_iff.2 hrefs'))
  exact ⟨p, hcompile, h⟩

/-! ### Right sides -/

namespace Compile

variable {scalarize : Bool} {s : EquationSystem} {number base D : Nat} {eq : Equation} {side : Expr}
  {sides : List Expr} {ks pending : List Pending}

/-- Each right side is expanded and then simplified. -/
lemma rightSides_eq_ok (h : rightSides s = .ok sides) :
    List.Forall₂ (fun eq side => ∃ e, eq.rhs.expand s.isConstant = .ok e ∧ e.simplify = .ok side)
      s.equations sides := by
  obtain ⟨expanded, hexpanded, h⟩ := bind_eq_ok_iff.1 h
  exact forall₂_trans (mapM_eq_ok_iff.1 hexpanded) (mapM_eq_ok_iff.1 h)

/-- What an equation is lowered to: in scalar mode a simplified component for each slot of its block,
and otherwise the whole right side, whose components go to their places over the label order of the
equation. -/
lemma lower_cases (hdim : s.dim = Int64.ofNat D) (hD : 0 < D) (hword : D < 2 ^ 63)
    (hside : side.WellFormed)
    (h : lower scalarize s number eq side (Int64.ofNat base) = .ok ks) :
    eq.order.Perm side.outer ∧
      ((scalarize = true ∧ ∃ parts,
        List.Forall₂ (fun ds part => ∃ m, eval s.isConstant s.dim side
            (Assignment.empty.setAll eq.order ds) = .ok m ∧ m.simplify = .ok part)
          (Odometer.visits eq.order.length D) parts ∧
        ks = parts.zipIdx.map fun entry => ⟨number, entry.1, [Int32.ofNat (base + entry.2)]⟩) ∨
      (scalarize = false ∧ ks = [⟨number, side, (List.range (D ^ side.outer.length)).map fun q =>
        Int32.ofNat (base + reindex D side.outer eq.order q)⟩])) := by
  rw [lower] at h
  split at h
  · rename_i hscalarize
    obtain ⟨parts, hparts, h⟩ := bind_eq_ok_iff.1 h
    cases h
    rw [hdim] at hparts ⊢
    obtain ⟨hperm, hparts⟩ := components_eq_ok hD hword hparts
    refine ⟨hperm, .inl ⟨hscalarize, parts, hparts, ?_⟩⟩
    apply List.map_congr_left
    rintro ⟨part, k⟩ _
    show Pending.mk number part [(Int64.ofNat base + Int64.ofNat k).toInt32] = _
    rw [← Int64.ofNat_add, Int64.toInt32_ofNat']
  · rename_i hscalarize
    obtain ⟨targets, htargets, h⟩ := bind_eq_ok_iff.1 h
    cases h
    have hperm : side.outer.Perm eq.order := by
      obtain ⟨hperm, -⟩ := guard_eq_ok htargets
      rwa [Bool.not_eq_true', Bool.not_eq_false, Index.isPermutation_iff] at hperm
    have hlen : eq.order.length < 2 ^ 63 := by
      rw [← hperm.length_eq]
      exact Nat.lt_of_le_of_lt hside.length_outer_le (by decide)
    rw [hdim, Index.componentMap_eq_ok hD hword hside.nodup_outer hperm hlen] at htargets
    cases htargets
    exact ⟨hperm.symm, .inr ⟨by simpa using hscalarize, rfl⟩⟩

/-- The expressions of pending kernels are well-formed and have no marks. -/
lemma lower_shape (hdim : s.dim = Int64.ofNat D) (hD : 0 < D) (hword : D < 2 ^ 63)
    (hside : side.WellFormed) (hmark : side.hasDerivative = false)
    (h : lower scalarize s number eq side (Int64.ofNat base) = .ok ks) {k : Pending} (hk : k ∈ ks) :
    k.expr.WellFormed ∧ k.expr.hasDerivative = false := by
  obtain ⟨-, ⟨-, parts, hparts, rfl⟩ | ⟨-, rfl⟩⟩ := lower_cases hdim hD hword hside h
  · obtain ⟨entry, hentry, rfl⟩ := List.mem_map.1 hk
    obtain ⟨ds, -, hpart⟩ := exists_of_mem_right hparts (List.fst_mem_of_mem_zipIdx hentry)
    obtain ⟨hwf, hplain, -⟩ := part_shape hpart
    exact ⟨hwf, hplain⟩
  · rw [List.mem_singleton.1 hk]
    exact ⟨hside, hmark⟩

/-! ### Targets -/

/-- The kernels of an equation write the slots of its block, each of them once, and each kernel has as
many targets as its root has components. -/
theorem lower_targets (hdim : s.dim = Int64.ofNat D) (hD : 0 < D) (hword : D < 2 ^ 63)
    (hside : side.WellFormed)
    (h : lower scalarize s number eq side (Int64.ofNat base) = .ok ks) :
    (ks.flatMap fun k => k.targets).Perm
        ((List.range' base (D ^ eq.order.length)).map Int32.ofNat) ∧
      ∀ k ∈ ks, k.targets.length = D ^ k.expr.outer.length := by
  obtain ⟨hperm, ⟨-, parts, hparts, rfl⟩ | ⟨-, rfl⟩⟩ := lower_cases hdim hD hword hside h
  · have hlength : parts.length = D ^ eq.order.length := by
      rw [← hparts.length_eq, Odometer.length_visits hD]
    constructor
    · have hslots : parts.zipIdx.map (fun entry => Int32.ofNat (base + entry.2))
          = (List.range' base (D ^ eq.order.length)).map Int32.ofNat := by
        have hsnd := List.zipIdx_map_snd 0 parts
        have hshift : (List.range' 0 parts.length).map (base + ·) = List.range' base parts.length :=
          List.map_add_range' ..
        rw [← hlength, ← hshift, ← hsnd, List.map_map, List.map_map]
        rfl
      rw [List.flatMap_map, ← hslots, List.map_eq_flatMap]
    · intro k hk
      obtain ⟨entry, hentry, rfl⟩ := List.mem_map.1 hk
      obtain ⟨ds, -, hpart⟩ := exists_of_mem_right hparts (List.fst_mem_of_mem_zipIdx hentry)
      obtain ⟨-, -, houter⟩ := part_shape hpart
      simp [houter]
  · constructor
    · have hslots : (List.range (D ^ side.outer.length)).map
            (fun q => Int32.ofNat (base + reindex D side.outer eq.order q))
          = (((List.range (D ^ side.outer.length)).map (reindex D side.outer eq.order)).map
            (base + ·)).map Int32.ofNat := by
        rw [List.map_map, List.map_map]
        rfl
      have hrange : (List.range' base (D ^ eq.order.length)).map Int32.ofNat
          = ((List.range (D ^ side.outer.length)).map (base + ·)).map Int32.ofNat := by
        rw [List.range_eq_range', List.map_add_range', hperm.length_eq, Nat.add_zero]
      rw [List.flatMap_singleton, hslots, hrange]
      exact ((Index.map_reindex_perm hD hside.nodup_outer hperm.symm).map _).map _
    · intro k hk
      rw [List.mem_singleton.1 hk]
      simp

/-- The first slot of the block of equation `j`, as a true number. -/
def start (D : Nat) (equations : List Equation) (j : Nat) : Nat :=
  ((equations.take j).map fun eq => D ^ eq.lhs.order).sum

/-- The first block starts at slot zero. -/
@[simp] lemma start_zero (equations : List Equation) : start D equations 0 = 0 := by
  rw [start, List.take_zero, List.map_nil, List.sum_nil]

/-- The next block starts where the one before ends. -/
@[simp] lemma start_succ (eq : Equation) (equations : List Equation) (j : Nat) :
    start D (eq :: equations) (j + 1) = D ^ eq.lhs.order + start D equations j := by
  rw [start, List.take_succ_cons, List.map_cons, List.sum_cons, start]

/-- The order of an equation is that of its labels, and small. -/
structure Ordered (eq : Equation) : Prop where
  lhs : eq.lhs.order = eq.order.length
  small : eq.order.length ≤ Index.capacity

/-- The components of an ordered equation are counted by a power of the dimension. -/
lemma components_eq (hdim : s.dim = Int64.ofNat D) (heq : Ordered eq) :
    eq.components s.dim = Int64.ofNat (D ^ eq.lhs.order) := by
  rw [Equation.components, hdim]
  apply Layout.power_ofNat
  rw [heq.lhs]
  exact Nat.lt_of_le_of_lt heq.small (by decide)

/-- Block after block. -/
lemma lowerAll_cons {l : List (Equation × Expr)} (hdim : s.dim = Int64.ofNat D) (heq : Ordered eq)
    (h : lowerAll scalarize s number (Int64.ofNat base) ((eq, side) :: l) = .ok pending) :
    ∃ first others, lower scalarize s number eq side (Int64.ofNat base) = .ok first ∧
      lowerAll scalarize s (number + 1) (Int64.ofNat (base + D ^ eq.lhs.order)) l = .ok others ∧
      pending = first ++ others := by
  obtain ⟨first, hfirst, h⟩ := bind_eq_ok_iff.1 h
  obtain ⟨others, hothers, h⟩ := bind_eq_ok_iff.1 h
  cases h
  rw [components_eq hdim heq, ← Int64.ofNat_add] at hothers
  exact ⟨first, others, hfirst, hothers, rfl⟩

/-- The kernels of all equations are those of each, whose block begins where the blocks before it
end. -/
lemma exists_lower {l : List (Equation × Expr)} (hdim : s.dim = Int64.ofNat D)
    (hl : ∀ entry ∈ l, Ordered entry.1)
    (h : lowerAll scalarize s number (Int64.ofNat base) l = .ok pending) :
    (∀ k ∈ pending, ∃ eq side number base ks, (eq, side) ∈ l ∧
      lower scalarize s number eq side (Int64.ofNat base) = .ok ks ∧ k ∈ ks) ∧
    ∀ j eq side, l[j]? = some (eq, side) → ∃ number ks,
      lower scalarize s number eq side (Int64.ofNat (base + start D (l.map Prod.fst) j)) = .ok ks ∧
        ∀ k ∈ ks, k ∈ pending := by
  induction l generalizing number base pending with
  | nil =>
    cases h
    exact ⟨nofun, nofun⟩
  | cons entry l ih =>
    obtain ⟨eq, side⟩ := entry
    rw [List.forall_mem_cons] at hl
    obtain ⟨first, others, hfirst, hothers, rfl⟩ := lowerAll_cons hdim hl.1 h
    obtain ⟨hfrom, hblock⟩ := ih hl.2 hothers
    constructor
    · intro k hk
      rcases List.mem_append.1 hk with hk | hk
      · exact ⟨eq, side, number, base, first, List.mem_cons_self, hfirst, hk⟩
      · obtain ⟨eq', side', number', base', ks, hmem, hlower, hk⟩ := hfrom k hk
        exact ⟨eq', side', number', base', ks, List.mem_cons_of_mem _ hmem, hlower, hk⟩
    · intro j eq' side' hj
      cases j with
      | zero =>
        cases hj
        exact ⟨number, first, by simpa using hfirst, fun k hk => List.mem_append_left _ hk⟩
      | succ j =>
        obtain ⟨number', ks, hlower, hks⟩ := hblock j eq' side' hj
        refine ⟨number', ks, ?_, fun k hk => List.mem_append_right _ (hks k hk)⟩
        rwa [List.map_cons, start_succ, ← Nat.add_assoc]

/-- The targets of all kernels are all slots, each of them once. -/
theorem lowerAll_targets {l : List (Equation × Expr)} (hdim : s.dim = Int64.ofNat D) (hD : 0 < D)
    (hword : D < 2 ^ 63) (hl : ∀ entry ∈ l, Ordered entry.1 ∧ entry.2.WellFormed)
    (h : lowerAll scalarize s number (Int64.ofNat base) l = .ok pending) :
    (pending.flatMap fun k => k.targets).Perm
      ((List.range' base (start D (l.map Prod.fst) l.length)).map Int32.ofNat) := by
  induction l generalizing number base pending with
  | nil =>
    cases h
    simp
  | cons entry l ih =>
    obtain ⟨eq, side⟩ := entry
    rw [List.forall_mem_cons] at hl
    obtain ⟨⟨heq, hside⟩, hl⟩ := hl
    obtain ⟨first, others, hfirst, hothers, rfl⟩ := lowerAll_cons hdim heq h
    have hhead := (lower_targets hdim hD hword hside hfirst).1
    rw [← heq.lhs] at hhead
    rw [List.flatMap_append, List.map_cons, List.length_cons, start_succ, ← List.range'_append_1,
      List.map_append]
    exact hhead.append (ih hl hothers)

end Compile

namespace EquationSystem

variable {value : Literal → α} {scalarize : Bool} {s : EquationSystem} {p : Program α}
  {sides : List Expr} {pending : List Compile.Pending} {c : Catalog}

/-- The dimension is a small positive number. -/
lemma dim_bounds (h : s.validate = .ok ()) : 1 ≤ s.dim.toInt ∧ s.dim.toInt ≤ 16 := by
  obtain ⟨⟨⟩, hframe, -⟩ := bind_eq_ok_iff.1 h
  rw [validateFrame] at hframe
  split at hframe
  · cases hframe
  · rename_i hdim
    simp only [Bool.or_eq_true, decide_eq_true_eq, not_or, Int64.lt_iff_toInt_lt, not_lt] at hdim
    exact hdim

/-- The dimension as a true number. -/
def radix (s : EquationSystem) : Nat := s.dim.toInt.toNat

/-- A system that passes its checks has between one and sixteen dimensions. -/
lemma radix_bounds (h : s.validate = .ok ()) :
    s.dim = Int64.ofNat s.radix ∧ 0 < s.radix ∧ s.radix ≤ 16 := by
  obtain ⟨hpos, hle⟩ := dim_bounds h
  rw [radix, ofNat_toNat_toInt (by omega)]
  exact ⟨rfl, by omega, by omega⟩

/-- A system that passes its checks has an equation. -/
lemma equations_ne_nil (h : s.validate = .ok ()) : s.equations ≠ [] := by
  obtain ⟨⟨⟩, hframe, -⟩ := bind_eq_ok_iff.1 h
  rw [validateFrame] at hframe
  split at hframe
  · cases hframe
  split at hframe
  · cases hframe
  · rename_i hcount
    exact fun hnil => hcount (by rw [hnil]; rfl)

/-- The label order of a checked equation has the free labels of its right side. -/
lemma order_perm (h : s.validate = .ok ()) {eq : Equation} (heq : eq ∈ s.equations) :
    eq.lhs.order = eq.rhs.outer.length ∧ eq.order.Perm eq.rhs.outer := by
  obtain ⟨⟨⟩, -, hequations⟩ := bind_eq_ok_iff.1 h
  have hvalidate := forM_eq_ok_iff.1 hequations eq heq
  rw [Equation.validate] at hvalidate
  split at hvalidate
  · cases hvalidate
  split at hvalidate
  · cases hvalidate
  · rename_i hrank hlabels
    rw [Bool.not_eq_true', Bool.not_eq_false, Index.isPermutation_iff] at hlabels
    exact ⟨not_not.1 hrank, hlabels⟩

/-- In a system that passes its checks, the order of every equation is that of its labels. -/
lemma ordered (h : s.validate = .ok ()) (hrhs : ∀ eq ∈ s.equations, eq.rhs.WellFormed)
    {eq : Equation} (heq : eq ∈ s.equations) : Compile.Ordered eq := by
  obtain ⟨hrank, hperm⟩ := order_perm h heq
  rw [← hperm.length_eq] at hrank
  refine ⟨hrank, ?_⟩
  rw [hperm.length_eq]
  exact (hrhs eq heq).length_outer_le

section Compiled

variable (h : s.Compiled value scalarize p sides pending c)
  (hrhs : ∀ eq ∈ s.equations, eq.rhs.WellFormed)

include h

/-- There is a right side for each equation. -/
lemma Compiled.map_fst_zip : (s.equations.zip sides).map Prod.fst = s.equations :=
  List.map_fst_zip (Compile.rightSides_eq_ok h.rightSides).length_eq.le

/-- The kernels have the targets of what they were flattened from. -/
lemma Compiled.flatMap_targets :
    (p.kernels.flatMap fun k => k.targets) = pending.flatMap fun k => k.targets := by
  have hsame := h.kernels.imp (S := fun k kernel => k.targets = kernel.targets)
    fun _ _ hk => hk.1.symm
  rw [← List.forall₂_map_right_iff, ← List.forall₂_map_left_iff, List.forall₂_eq_eq_eq] at hsame
  rw [List.flatMap_def, List.flatMap_def, hsame]

include hrhs

/-- The expression of a right side. -/
lemma Compiled.side_shape {eq : Equation} {side : Expr}
    (hentry : (eq, side) ∈ s.equations.zip sides) :
    side.WellFormed ∧ side.hasDerivative = false := by
  obtain ⟨e, hexpand, hsimplify⟩ :=
    List.forall₂_zip (Compile.rightSides_eq_ok h.rightSides) hentry
  obtain ⟨hwf, hmark⟩ := expand_wellFormed (hrhs eq (List.of_mem_zip hentry).1) hexpand
  have hsimplified := simplified_of_simplify hwf hmark hsimplify
  exact ⟨hsimplified.wellFormed, hsimplified.hasDerivative⟩

/-- Each equation is lowered from the first slot of its block on. -/
lemma Compiled.exists_lower :
    (∀ k ∈ pending, ∃ eq side number base ks, (eq, side) ∈ s.equations.zip sides ∧
      Compile.lower scalarize s number eq side (Int64.ofNat base) = .ok ks ∧ k ∈ ks) ∧
    ∀ j eq side, (s.equations.zip sides)[j]? = some (eq, side) → ∃ number ks,
      Compile.lower scalarize s number eq side
        (Int64.ofNat (Compile.start s.radix s.equations j)) = .ok ks ∧ ∀ k ∈ ks, k ∈ pending := by
  have hl : ∀ entry ∈ s.equations.zip sides, Compile.Ordered entry.1 := fun entry hentry =>
    ordered h.validate hrhs (List.of_mem_zip hentry).1
  have hlowered : Compile.lowerAll scalarize s 0 (Int64.ofNat 0) (s.equations.zip sides)
      = .ok pending := h.lowered
  have hlower := Compile.exists_lower (radix_bounds h.validate).1 hl hlowered
  simpa only [Nat.zero_add, h.map_fst_zip] using hlower

/-- What is flattened is well formed and without marks, and each of its components has a target. -/
theorem Compiled.shape {k : Compile.Pending} (hk : k ∈ pending) :
    k.expr.WellFormed ∧ k.expr.hasDerivative = false ∧
      k.targets.length = s.radix ^ k.expr.outer.length := by
  obtain ⟨hdim, hpos, hle⟩ := radix_bounds h.validate
  obtain ⟨eq, side, number, base, ks, hentry, hlower, hk⟩ := (h.exists_lower hrhs).1 k hk
  obtain ⟨hside, hmark⟩ := h.side_shape hrhs hentry
  obtain ⟨hwf, hplain⟩ := Compile.lower_shape hdim hpos (by omega) hside hmark hlower hk
  exact ⟨hwf, hplain, (Compile.lower_targets hdim hpos (by omega) hside hlower).2 k hk⟩

/-- All slots are targets, each of them once. -/
theorem Compiled.targets :
    (pending.flatMap fun k => k.targets).Perm
      ((List.range (Compile.start s.radix s.equations s.equations.length)).map Int32.ofNat) := by
  obtain ⟨hdim, hpos, hle⟩ := radix_bounds h.validate
  have hl : ∀ entry ∈ s.equations.zip sides, Compile.Ordered entry.1 ∧ entry.2.WellFormed :=
    fun entry hentry => ⟨ordered h.validate hrhs (List.of_mem_zip hentry).1,
      (h.side_shape hrhs hentry).1⟩
  have hlowered : Compile.lowerAll scalarize s 0 (Int64.ofNat 0) (s.equations.zip sides)
      = .ok pending := h.lowered
  have htargets := Compile.lowerAll_targets hdim hpos (by omega) hl hlowered
  have hlength : (s.equations.zip sides).length = s.equations.length := by
    rw [← List.length_map Prod.fst, h.map_fst_zip]
  rwa [h.map_fst_zip, hlength, ← List.range_eq_range'] at htargets

/-- There is a kernel to make. -/
lemma Compiled.pending_ne_nil : pending ≠ [] := by
  rintro rfl
  obtain ⟨eq, hfirst⟩ := List.exists_mem_of_ne_nil _ (equations_ne_nil h.validate)
  have hempty := (h.targets hrhs).length_eq
  have hslots : 0 < Compile.start s.radix s.equations s.equations.length := by
    rw [Compile.start, List.take_length]
    have hblock := Nat.pow_pos (n := eq.lhs.order) (radix_bounds h.validate).2.1
    exact Nat.lt_of_lt_of_le hblock (List.single_le_sum (by simp) _ (List.mem_map_of_mem hfirst))
  simp only [List.flatMap_nil, List.length_nil, List.length_map, List.length_range] at hempty
  omega

end Compiled

end EquationSystem

end Indicial
