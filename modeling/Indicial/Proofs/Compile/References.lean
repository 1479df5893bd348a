import Indicial.Proofs.Compile.Valid
import Indicial.Proofs.Expr.Reads

/-!
# What compiled programs refer to

The references in the catalog of a compiled program are those that its kernels read. A kernel is a
right side or a component of one, expanded and simplified, so it reads the tensors and scalars of that
right side and components of these tensors (`Compiled.references_in`).
-/

namespace Indicial

open Indicial.Expr

variable {α : Type}

namespace Compile

variable {scalarize : Bool} {s : EquationSystem} {number base D : Nat} {eq : Equation} {side n : Expr}
  {ks : List Pending} {T : Tensor → Prop} {R : ScalarRef → Prop}

/-- A node of an expression reads scalars that the expression reads, and components of its tensors. -/
lemma nodeRefs_in (hR : ComponentsIn T R) (hn : n.Reads T R) {m : Expr} (hm : m ∈ n.postorder)
    {rs : List ScalarRef} (h : nodeRefs s m = .ok rs) {r : ScalarRef} (hr : r ∈ rs) : R r := by
  obtain ⟨htensor, hscalar⟩ := reads_iff_postorder.1 hn m hm
  cases m with
  | scalar ref =>
    cases h
    rw [List.mem_singleton.1 hr]
    exact hscalar ref rfl
  | tensor symbol labels =>
    obtain ⟨assignments, -, h⟩ := bind_eq_ok_iff.1 h
    obtain ⟨ds, -, hreference⟩ := exists_of_mem_right (mapM_eq_ok_iff.1 h) hr
    exact hR (htensor symbol labels rfl) hreference
  | _ =>
    cases h
    cases hr

/-- What a right side is lowered to reads what the right side reads. -/
lemma lower_reads (hR : ComponentsIn T R) (hdim : s.dim = Int64.ofNat D) (hD : 0 < D)
    (hword : D < 2 ^ 63) (hside : side.WellFormed) (hreads : side.Reads T R)
    (h : lower scalarize s number eq side (Int64.ofNat base) = .ok ks) {k : Pending} (hk : k ∈ ks) :
    k.expr.Reads T R := by
  obtain ⟨-, ⟨-, parts, hparts, rfl⟩ | ⟨-, rfl⟩⟩ := lower_cases hdim hD hword hside h
  · obtain ⟨entry, hentry, rfl⟩ := List.mem_map.1 hk
    obtain ⟨ds, -, m, hm, hpart⟩ := exists_of_mem_right hparts (List.fst_mem_of_mem_zipIdx hentry)
    exact simplify_reads (eval_reads hR hreads hm) hpart
  · rw [List.mem_singleton.1 hk]
    exact hreads

end Compile

namespace EquationSystem

variable {value : Literal → α} {scalarize : Bool} {s : EquationSystem} {p : Program α}
  {sides : List Expr} {pending : List Compile.Pending} {c : Catalog} {T : Tensor → Prop}
  {R : ScalarRef → Prop}

/-- Kernels read what right sides may read: their scalars, and components of their tensors. -/
lemma Compiled.reads (h : s.Compiled value scalarize p sides pending c) (hR : ComponentsIn T R)
    (hrhs : ∀ eq ∈ s.equations, eq.rhs.WellFormed) (hreads : ∀ eq ∈ s.equations, eq.rhs.Reads T R)
    {k : Compile.Pending} (hk : k ∈ pending) : k.expr.Reads T R := by
  obtain ⟨hdim, hpos, hle⟩ := radix_bounds h.validate
  obtain ⟨eq, side, number, base, ks, hentry, hlower, hk⟩ := (h.exists_lower hrhs).1 k hk
  obtain ⟨e, hexpand, hsimplify⟩ := List.forall₂_zip (Compile.rightSides_eq_ok h.rightSides) hentry
  have heq := (List.of_mem_zip hentry).1
  have hside := simplify_reads (expand_reads (hreads eq heq) hexpand) hsimplify
  exact Compile.lower_reads hR hdim hpos (by omega) (h.side_shape hrhs hentry).1 hside hlower hk

/-- The catalog refers to scalars of the right sides and to components of their tensors. -/
theorem Compiled.references_in (h : s.Compiled value scalarize p sides pending c)
    (hR : ComponentsIn T R) (hrhs : ∀ eq ∈ s.equations, eq.rhs.WellFormed)
    (hreads : ∀ eq ∈ s.equations, eq.rhs.Reads T R) {r : ScalarRef}
    (hr : r ∈ c.constants ++ c.scalars) : R r := by
  have hmem : r ∈ c.tableOf r := by
    obtain ⟨refs, -, rfl⟩ := h.references
    rwa [Catalog.mem_tableOf_ofRefs, ← Catalog.mem_append_ofRefs]
  obtain ⟨k, hk, m, hm, rs, hrs, hr⟩ := h.mem_tableOf_iff.1 hmem
  exact Compile.nodeRefs_in hR (h.reads hR hrhs hreads hk) hm hrs hr

end EquationSystem

end Indicial
