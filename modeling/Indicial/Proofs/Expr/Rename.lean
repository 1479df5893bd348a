import Indicial.Proofs.Expr.Value

/-!
# Renaming summed labels

A label that a node sums over may be renamed, inside this node, to one that does not occur in it. The
free labels stay the same up to order, and so does the value. Leaves and relabellings have the label
among their own, where it repeats; a product or ratio has it in both operands, which are relabelled.
-/

namespace Indicial

open Indicial.Valuation

namespace Index

variable {a : Index} {old new c : Label}

/-- The function that renames one label. -/
def swap (old new : Label) (c : Label) : Label := if c == old then new else c

/-- Renaming a label maps the others to themselves. -/
lemma rename_eq_map : rename a old new = a.map (swap old new) := rfl

/-- A new name keeps the labels apart. -/
lemma swap_injOn (hnew : new ∉ a) : Set.InjOn (swap old new) {c | c ∈ a} := by
  intro c hc d hd h
  simp only [swap, beq_iff_eq] at h
  split at h <;> split at h
  · simp_all
  · rename_i hdo
    rw [Set.mem_ofPred_eq, ← h] at hd
    exact absurd hd hnew
  · rename_i hco _
    rw [Set.mem_ofPred_eq, h] at hc
    exact absurd hc hnew
  · exact h

/-- Renaming a repeated label keeps the labels that occur once. -/
lemma exclusive_rename (hold : old ∈ repeated a) (hnew : new ∉ a) :
    (exclusive (rename a old new)).Perm (exclusive a) := by
  have hne : new ≠ old := by
    rintro rfl
    rw [mem_repeated] at hold
    exact hnew (List.count_pos_iff.1 (by omega))
  apply perm_of_nodup (nodup_exclusive _) (nodup_exclusive _)
  intro c
  rw [mem_repeated] at hold
  have hzero : a.count new = 0 := List.count_eq_zero.2 hnew
  simp only [mem_exclusive, count_rename hnew hne]
  grind

/-- Renaming a label renames it among the labels that repeat. -/
lemma repeated_rename (hnew : new ∉ a) (hne : new ≠ old) :
    (repeated (rename a old new)).Perm ((repeated a).map (swap old new)) := by
  have hrep : new ∉ repeated a := by
    rw [mem_repeated, List.count_eq_zero.2 hnew]
    omega
  apply perm_of_nodup (nodup_repeated _)
  · exact nodup_rename (nodup_repeated _) hrep hne
  · intro c
    have hzero : a.count new = 0 := List.count_eq_zero.2 hnew
    rw [← rename_eq_map, mem_rename hrep hne]
    simp only [mem_repeated, count_rename hnew hne]
    grind

/-- Renaming a label of both indices keeps the labels of one of them only. -/
lemma symmetricDifference_rename {b : Index} (ha : a.Nodup) (hb : b.Nodup)
    (hold : old ∈ intersect a b) (hnewa : new ∉ a) (hnewb : new ∉ b) :
    (symmetricDifference (rename a old new) (rename b old new)).Perm (symmetricDifference a b) := by
  rw [mem_intersect] at hold
  have hne : new ≠ old := by
    rintro rfl
    exact hnewa hold.1
  apply perm_of_nodup
  · exact nodup_symmetricDifference (nodup_rename ha hnewa hne) (nodup_rename hb hnewb hne)
  · exact nodup_symmetricDifference ha hb
  · intro c
    simp only [mem_symmetricDifference, mem_rename hnewa hne, mem_rename hnewb hne]
    grind

/-- Renaming a label of both indices renames it among those that they share. -/
lemma intersect_rename {b : Index} (hnewa : new ∉ a) (hnewb : new ∉ b) (hne : new ≠ old) :
    (intersect (rename a old new) (rename b old new)).Perm
      ((intersect a b).map (swap old new)) := by
  have hint : new ∉ intersect a b := fun h => hnewa (mem_intersect.1 h).1
  apply perm_of_nodup (nodup_intersect _ _)
  · exact nodup_rename (nodup_intersect _ _) hint hne
  · intro c
    rw [← rename_eq_map, mem_rename hint hne]
    simp only [mem_intersect, mem_rename hnewa hne, mem_rename hnewb hne]
    grind

end Index

namespace Expr

variable {K : Type*} [Field K] {I : Interpretation K} {dim : Nat} {l r e : Expr} {old new : Label}

open Index (swap)

/-- A sum over repeated labels may have one of them renamed. -/
lemma sumLabels_repeated_rename {M : Type*} [AddCommMonoid M] {labels : Index}
    {f g : Valuation → M} {ρ : Valuation} (hold : old ∈ Index.repeated labels)
    (hnew : new ∉ labels)
    (h : ∀ σ σ' : Valuation, (∀ c ∈ labels, σ' (swap old new c) = σ c) → f σ' = g σ) :
    sumLabels dim (Index.repeated (Index.rename labels old new)) ρ f
      = sumLabels dim (Index.repeated labels) ρ g := by
  have hne : new ≠ old := by
    rintro rfl
    rw [Index.mem_repeated] at hold
    exact hnew (List.count_pos_iff.1 (by omega))
  rw [sumLabels_perm (Index.repeated_rename hnew hne)]
  symm
  apply sumLabels_congr_map
  · apply (Index.swap_injOn hnew).mono
    intro c hc
    have hcount : 1 < labels.count c := Index.mem_repeated.1 hc
    exact List.count_pos_iff.1 (by omega)
  · intro σ σ' hin hout hout'
    refine (h σ σ' fun c hc => ?_).symm
    by_cases hrep : c ∈ Index.repeated labels
    · exact (hin c hrep).1.symm
    · have hco : c ≠ old := by
        rintro rfl
        exact hrep hold
      have hcn : c ≠ new := by
        rintro rfl
        exact hnew hc
      have hswap : swap old new c = c := by simp [swap, hco]
      rw [hswap, hout c hrep, hout' c]
      rw [← Index.rename_eq_map, Index.mem_rename (fun h => hnew ?_) hne]
      · simp [hco, hcn, hrep]
      · have hcount : 1 < labels.count new := Index.mem_repeated.1 h
        exact List.count_pos_iff.1 (by omega)

/-- A summed label of a leaf may be renamed. -/
lemma agrees_tensor_rename {symbol : Tensor} {labels : Index}
    (hold : old ∈ Index.repeated labels) (hnew : new ∉ labels) :
    Agrees I dim (tensor symbol (Index.rename labels old new)) (tensor symbol labels) := by
  refine ⟨Index.exclusive_rename hold hnew, fun ρ => ?_⟩
  apply sumLabels_repeated_rename hold hnew
  intro σ σ' h
  rw [Index.rename_eq_map, List.map_map]
  exact congrArg _ (List.map_congr_left h)

/-- A summed label of a relabelling may be renamed. -/
lemma agrees_bind_rename {target : Index} (he : (bind e target).WellFormed)
    (hold : old ∈ Index.repeated target) (hnew : new ∉ target) :
    Agrees I dim (bind e (Index.rename target old new)) (bind e target) := by
  obtain ⟨f, rfl⟩ := exists_relabelling he.1.nodup_outer he.2
  refine ⟨Index.exclusive_rename hold hnew, fun ρ => ?_⟩
  have hrename : Index.rename (e.outer.map f) old new = e.outer.map (swap old new ∘ f) := by
    rw [Index.rename_eq_map, List.map_map]
  rw [hrename, value_bind_map he.1, value_bind_map he.1, ← hrename]
  apply sumLabels_repeated_rename hold hnew
  intro σ σ' h
  apply value_congr he.1
  intro c hc
  exact h (f c) (List.mem_map_of_mem hc)

/-- The free labels of an operand in which a label was renamed. -/
lemma outer_bind_rename (he : e.WellFormed) (hnew : new ∉ e.outer) (hne : new ≠ old) :
    (bind e (Index.rename e.outer old new)).outer = Index.rename e.outer old new :=
  Index.exclusive_eq_self (Index.nodup_rename he.nodup_outer hnew hne)

/-- The value of an operand in which a label was renamed. -/
lemma value_bind_rename (he : e.WellFormed) (hnew : new ∉ e.outer) (hne : new ≠ old)
    (ρ : Valuation) :
    value I dim (bind e (Index.rename e.outer old new)) ρ
      = value I dim e (ρ ∘ swap old new) := by
  rw [Index.rename_eq_map, value_bind_map he, ← Index.rename_eq_map,
    Index.repeated_eq_nil_iff.2 (Index.nodup_rename he.nodup_outer hnew hne), sumLabels_nil]

/-- A sum over shared labels may have one of them renamed in both operands. -/
lemma sumLabels_intersect_rename {M : Type*} [AddCommMonoid M] {f : K → K → M} {ρ : Valuation}
    (hl : l.WellFormed) (hr : r.WellFormed) (hold : old ∈ Index.intersect l.outer r.outer)
    (hnewl : new ∉ l.outer) (hnewr : new ∉ r.outer) :
    (sumLabels dim
        (Index.intersect (bind l (Index.rename l.outer old new)).outer
          (bind r (Index.rename r.outer old new)).outer) ρ
        fun σ => f (value I dim (bind l (Index.rename l.outer old new)) σ)
          (value I dim (bind r (Index.rename r.outer old new)) σ))
      = sumLabels dim (Index.intersect l.outer r.outer) ρ fun σ =>
          f (value I dim l σ) (value I dim r σ) := by
  have hne : new ≠ old := by
    rintro rfl
    exact hnewl (Index.mem_intersect.1 hold).1
  have hint : new ∉ Index.intersect l.outer r.outer :=
    fun h => hnewl (Index.mem_intersect.1 h).1
  rw [outer_bind_rename hl hnewl hne, outer_bind_rename hr hnewr hne,
    sumLabels_perm (Index.intersect_rename hnewl hnewr hne)]
  simp only [value_bind_rename hl hnewl hne, value_bind_rename hr hnewr hne]
  symm
  apply sumLabels_congr_map (Index.swap_injOn hint)
  intro σ σ' hin hout hout'
  have hagree : ∀ c, c ≠ new → σ c = (σ' ∘ swap old new) c := by
    intro c hcn
    by_cases hc : c ∈ Index.intersect l.outer r.outer
    · exact (hin c hc).1
    · have hco : c ≠ old := by
        rintro rfl
        exact hc hold
      have hswap : swap old new c = c := by simp [swap, hco]
      rw [Function.comp_apply, hswap, hout c hc, hout' c]
      rw [← Index.rename_eq_map, Index.mem_rename hint hne]
      simp [hco, hcn, hc]
  have hvl : value I dim l σ = value I dim l (σ' ∘ swap old new) :=
    value_congr hl fun c hc => hagree c fun h => hnewl (h ▸ hc)
  have hvr : value I dim r σ = value I dim r (σ' ∘ swap old new) :=
    value_congr hr fun c hc => hagree c fun h => hnewr (h ▸ hc)
  rw [hvl, hvr]

/-- The free labels of a product or ratio in which a summed label was renamed. -/
lemma symmetricDifference_bind_rename (hl : l.WellFormed) (hr : r.WellFormed)
    (hold : old ∈ Index.intersect l.outer r.outer)
    (hnewl : new ∉ l.outer) (hnewr : new ∉ r.outer) :
    (Index.symmetricDifference (bind l (Index.rename l.outer old new)).outer
      (bind r (Index.rename r.outer old new)).outer).Perm
      (Index.symmetricDifference l.outer r.outer) := by
  have hne : new ≠ old := by
    rintro rfl
    exact hnewl (Index.mem_intersect.1 hold).1
  rw [outer_bind_rename hl hnewl hne, outer_bind_rename hr hnewr hne]
  exact Index.symmetricDifference_rename hl.nodup_outer hr.nodup_outer hold hnewl hnewr

/-- A summed label of a product may be renamed. -/
lemma agrees_product_rename (hl : l.WellFormed) (hr : r.WellFormed)
    (hold : old ∈ Index.intersect l.outer r.outer)
    (hnewl : new ∉ l.outer) (hnewr : new ∉ r.outer) :
    Agrees I dim
      (product (bind l (Index.rename l.outer old new)) (bind r (Index.rename r.outer old new)))
      (product l r) :=
  ⟨symmetricDifference_bind_rename hl hr hold hnewl hnewr, fun _ =>
    sumLabels_intersect_rename hl hr hold hnewl hnewr⟩

/-- A summed label of a ratio may be renamed. -/
lemma agrees_ratio_rename (hl : l.WellFormed) (hr : r.WellFormed)
    (hold : old ∈ Index.intersect l.outer r.outer)
    (hnewl : new ∉ l.outer) (hnewr : new ∉ r.outer) :
    Agrees I dim
      (ratio (bind l (Index.rename l.outer old new)) (bind r (Index.rename r.outer old new)))
      (ratio l r) :=
  ⟨symmetricDifference_bind_rename hl hr hold hnewl hnewr, fun _ =>
    sumLabels_intersect_rename hl hr hold hnewl hnewr⟩

end Expr

end Indicial
