import Indicial.Proofs.Compile
import Indicial.Proofs.Engine.Span

/-!
# Engines of compiled programs

The kernels of a compiled program are jobs: flattening says which expression a tree computes, and the
checks that an engine makes say that there are as many targets as components, that each slot is a
target once, and that all constants are there. So the engine is staffed (`exists_staffed`), and any
arena of the size that it asks for is ready for it (`Engine.ready`). There is an engine as soon as the
program passes its checks (`EquationSystem.Compiled.exists_engine`).
-/

namespace Indicial

open Indicial.Expr

variable {α : Type} {A : Arith α} {e : Engine α} {p : Program α} {workers chunk : Int64}

/-! ### What an engine is made of -/

/-- The plans of the kernels, one for each. -/
lemma forall₂_plans {kernels : List (Kernel α)} (htree : ∀ k ∈ kernels, ∃ t, k.tree = some t)
    {start : Nat} {plans : List (Plan α)}
    (h : List.Forall₂ (fun entry plan => Except.within (.planKernel entry.2) (Plan.ofTree A entry.1)
      = .ok plan) ((kernels.filterMap (·.tree)).zipIdx start) plans) :
    List.Forall₂ (fun k plan => ∃ t, k.tree = some t ∧ Plan.ofTree A t = .ok plan) kernels plans := by
  induction kernels generalizing start plans with
  | nil =>
    cases h
    exact .nil
  | cons k kernels ih =>
    obtain ⟨t, ht⟩ := htree k (by simp)
    rw [List.filterMap_cons_some ht, List.zipIdx_cons] at h
    cases h with
    | cons hplan h =>
      exact .cons ⟨t, ht, within_eq_ok_iff.1 hplan⟩
        (ih (fun k hk => htree k (List.mem_cons_of_mem _ hk)) h)

/-- An engine has the program it was made for, storage for all its trees and one plan for each kernel.
-/
lemma Engine.make_eq_ok (h : Engine.make A p workers chunk = .ok e) :
    e.program = p ∧ e.depth = p.stackDepth ∧ ∃ c, p.Valid c ∧
      List.Forall₂ (fun k plan => ∃ t, k.tree = some t ∧ Plan.ofTree A t = .ok plan)
        p.kernels e.plans := by
  obtain ⟨⟨⟩, hvalidate, h⟩ := bind_eq_ok_iff.1 h
  obtain ⟨plans, hplans, h⟩ := bind_eq_ok_iff.1 h
  cases h
  obtain ⟨c, hvalid⟩ := Program.valid_of_validate (within_eq_ok_iff.1 hvalidate)
  refine ⟨rfl, rfl, c, hvalid, forall₂_plans (fun k hk => ?_) (mapM_eq_ok_iff.1 hplans)⟩
  obtain ⟨t, ht⟩ := hvalid.kernel k hk
  exact ⟨t, ht.tree⟩

/-- A program that passes its checks and whose trees can be planned gets an engine. -/
lemma Engine.exists_make (hvalidate : p.validate = .ok ())
    (hplans : ∀ t ∈ p.trees, ∃ plan, Plan.ofTree A t = .ok plan) (workers chunk : Int64) :
    ∃ e, Engine.make A p workers chunk = .ok e := by
  have hall : ∀ entry ∈ p.trees.zipIdx, ∃ plan,
      Except.within (.planKernel entry.2) (Plan.ofTree A entry.1) = .ok plan := by
    intro entry hentry
    obtain ⟨plan, hplan⟩ := hplans entry.1 (List.fst_mem_of_mem_zipIdx hentry)
    exact ⟨plan, within_eq_ok_iff.2 hplan⟩
  obtain ⟨plans, hplans⟩ := exists_mapM_eq_ok hall
  exact ⟨_, by rw [Engine.make, within_eq_ok_iff.2 hvalidate, ok_bind, hplans, ok_bind, pure_eq_ok]⟩

/-- No tree needs more storage than the most demanding one. -/
lemma stackDepth_bounds (p : Program α) :
    0 ≤ p.stackDepth.toInt ∧ p.stackDepth.toInt < 2 ^ 31 ∧
      ∀ t ∈ p.trees, t.depth.toInt ≤ p.stackDepth.toInt := by
  suffices key : ∀ (l : List (Tree α)) (d : Int64), d.toInt < 2 ^ 31 →
      d.toInt ≤ (l.foldl (fun d t => max d t.depth.toInt64) d).toInt ∧
      (l.foldl (fun d t => max d t.depth.toInt64) d).toInt < 2 ^ 31 ∧
      ∀ t ∈ l, t.depth.toInt ≤ (l.foldl (fun d t => max d t.depth.toInt64) d).toInt from
    key p.trees 0 (by decide)
  intro l
  induction l with
  | nil => exact fun d hd => ⟨le_rfl, hd, nofun⟩
  | cons x l ih =>
    intro d hd
    have hnext : (max d x.depth.toInt64).toInt = max d.toInt x.depth.toInt := by
      rw [toInt_max, Int32.toInt_toInt64]
    have hx := x.depth.toInt_lt
    obtain ⟨hstart, hlt, hrest⟩ := ih (max d x.depth.toInt64) (by omega)
    rw [List.foldl_cons, List.forall_mem_cons]
    exact ⟨by omega, hlt, by omega, hrest⟩

/-! ### Kernels as jobs -/

/-- Two lists whose entries have something in common pairwise. -/
lemma exists_map_of_forall₂ {β γ δ β' γ' : Type} {f : β → β'} {f' : δ → β'} {g : γ → γ'}
    {g' : δ → γ'} {l : List β} {m : List γ}
    (h : List.Forall₂ (fun b c => ∃ d, f b = f' d ∧ g c = g' d) l m) :
    ∃ ds : List δ, l.map f = ds.map f' ∧ m.map g = ds.map g' := by
  induction h with
  | nil => exact ⟨[], rfl, rfl⟩
  | cons hhead _ ih =>
    obtain ⟨d, hf, hg⟩ := hhead
    obtain ⟨ds, hfs, hgs⟩ := ih
    exact ⟨d :: ds, by rw [List.map_cons, List.map_cons, hf, hfs],
      by rw [List.map_cons, List.map_cons, hg, hgs]⟩

/-- The root of a plan is as large as the root of the tree. -/
lemma rootSize_of_ofTree {t : Tree α} {plan : Plan α} (h : Plan.ofTree A t = .ok plan) :
    plan.rootSize = t.size t.root := by
  obtain ⟨⟨⟩, -, h⟩ := bind_eq_ok_iff.1 h
  obtain ⟨nodes, -, h⟩ := bind_eq_ok_iff.1 h
  cases h
  rfl

/-- A checked kernel does the job of computing the expression that it was flattened from. -/
lemma exists_job {w : Lowering α} {D : Nat} {c : Catalog} {k : Kernel α} {t : Tree α} {n : Expr}
    {plan : Plan α} (hkernel : p.KernelValid c k t) (hplan : Plan.ofTree A t = .ok plan)
    (hflat : Expr.flatten w n = .ok t) (hdim : w.dim = Int64.ofNat D) (hD : D < 2 ^ 63)
    (hn : n.WellFormed) (hmark : n.hasDerivative = false) (htotal : t.totalWindow < 2 ^ 31)
    (ht : t ∈ p.trees) :
    ∃ j : Job A D w p.width.toInt.toNat p.stackDepth.toInt.toNat c.constants.length,
      j.expr = n ∧ j.targets = k.targets ∧ j.plan = plan := by
  obtain ⟨plan', hplan', hevaluates⟩ := ofTree_evaluates A hflat hdim hD hn hmark htotal
  rw [hplan] at hplan'
  cases hplan'
  obtain ⟨hpos, -, hdepth⟩ := stackDepth_bounds p
  have hlength : k.targets.length = D ^ n.outer.length := by
    have hsize := hkernel.length_targets
    have hlt := hevaluates.size_lt
    rw [← rootSize_of_ofTree hplan, hevaluates.rootSize, Int64.toInt_ofNat_of_lt (by omega)] at hsize
    exact_mod_cast hsize
  refine ⟨⟨n, t, plan, k.targets, hevaluates, ?_, hlength, fun slot hslot => ?_, ?_⟩, rfl, rfl, rfl⟩
  · have := hdepth t ht
    omega
  · have := hkernel.target_lt slot hslot
    omega
  · intro inputs hconstants i hi hkind e he
    have hid := hkernel.id_lt i hi e he
    rwa [Program.idLimit, if_pos hkind, ← hconstants] at hid

section Staff

variable {value : Literal → α} {scalarize : Bool} {s : EquationSystem} {sides : List Expr}
  {pending : List Compile.Pending} {c : Catalog}

/-- Every kernel of a compiled program can be planned. -/
lemma EquationSystem.Compiled.exists_plan (h : s.Compiled value scalarize p sides pending c)
    (hrhs : ∀ eq ∈ s.equations, eq.rhs.WellFormed) (htotal : ∀ t ∈ p.trees, t.totalWindow < 2 ^ 31)
    (A : Arith α) {t : Tree α} (ht : t ∈ p.trees) : ∃ plan, Plan.ofTree A t = .ok plan := by
  obtain ⟨hdim, -, hle⟩ := radix_bounds h.validate
  obtain ⟨kernel, hkernel, htree⟩ := List.mem_filterMap.1 ht
  obtain ⟨k, hk, -, t', htree', hflat⟩ := exists_of_mem_right h.kernels hkernel
  obtain rfl : t = t' := Option.some.inj (htree.symm.trans htree')
  obtain ⟨hwf, hmark, -⟩ := h.shape hrhs hk
  obtain ⟨plan, hplan, -⟩ := ofTree_evaluates A hflat hdim (by omega) hwf hmark (htotal t ht)
  exact ⟨plan, hplan⟩

/-- Every pending expression is the job of its kernel. -/
lemma forall₂_jobs (h : s.Compiled value scalarize p sides pending c)
    (hrhs : ∀ eq ∈ s.equations, eq.rhs.WellFormed) (htotal : ∀ t ∈ p.trees, t.totalWindow < 2 ^ 31)
    (hvalid : p.Valid c)
    (hplans : List.Forall₂ (fun k plan => ∃ t, k.tree = some t ∧ Plan.ofTree A t = .ok plan)
      p.kernels e.plans) :
    List.Forall₂ (fun k entry => ∃ j : Job A s.radix ⟨s.dim, s.isConstant, c, value⟩
        p.width.toInt.toNat p.stackDepth.toInt.toNat c.constants.length,
      (k.expr, k.targets) = (j.expr, j.targets) ∧ (entry.1, entry.2.targets) = (j.plan, j.targets))
      pending (e.plans.zip p.kernels) := by
  obtain ⟨hofNat, hdim, hsmall⟩ := EquationSystem.radix_bounds h.validate
  have hjob : ∀ (k : Compile.Pending) (kernel : Kernel α) (plan : Plan α),
      k ∈ pending → kernel ∈ p.kernels → (kernel.targets = k.targets ∧ ∃ t, kernel.tree = some t ∧
        Expr.flatten ⟨s.dim, s.isConstant, c, value⟩ k.expr = .ok t) →
      (∃ t, kernel.tree = some t ∧ Plan.ofTree A t = .ok plan) →
      ∃ j : Job A s.radix ⟨s.dim, s.isConstant, c, value⟩ p.width.toInt.toNat
          p.stackDepth.toInt.toNat c.constants.length,
        (k.expr, k.targets) = (j.expr, j.targets) ∧
          (plan, kernel.targets) = (j.plan, j.targets) := by
    rintro k kernel plan hk hkernel ⟨htargets, t, ht, hflat⟩ ⟨t', ht', hplan⟩
    obtain rfl : t = t' := Option.some.inj (ht.symm.trans ht')
    obtain ⟨t', hchecked⟩ := hvalid.kernel kernel hkernel
    obtain rfl : t = t' := Option.some.inj (ht.symm.trans hchecked.tree)
    obtain ⟨hwf, hmark, -⟩ := h.shape hrhs hk
    have hmem : t ∈ p.trees := List.mem_filterMap.2 ⟨kernel, hkernel, ht⟩
    obtain ⟨j, hexpr, hjt, hjplan⟩ := exists_job hchecked hplan hflat hofNat (by omega) hwf hmark
      (htotal t hmem) hmem
    exact ⟨j, by rw [hexpr, hjt, htargets], by rw [hjplan, hjt]⟩
  clear * - h hplans hjob
  -- The three lists run in step: pending expressions, kernels and plans.
  have hkernels := h.kernels
  generalize pending = pending at hkernels hjob
  generalize p.kernels = kernels at hkernels hplans hjob
  generalize e.plans = plans at hplans
  induction hkernels generalizing plans with
  | nil =>
    cases hplans
    exact .nil
  | @cons k kernel ks kernels hfirst _ ih =>
    cases hplans with
    | @cons _ plan _ plans hplan hplans =>
      refine .cons (hjob k kernel plan (by simp) (by simp) hfirst hplan) (ih ?_ plans hplans)
      intro k' kernel' plan' hk' hkernel'
      exact hjob k' kernel' plan' (List.mem_cons_of_mem _ hk') (List.mem_cons_of_mem _ hkernel')

/-- The engine of a compiled program is staffed with the jobs of all pending expressions. -/
theorem exists_staffed (h : s.Compiled value scalarize p sides pending c)
    (hrhs : ∀ eq ∈ s.equations, eq.rhs.WellFormed) (htotal : ∀ t ∈ p.trees, t.totalWindow < 2 ^ 31)
    (hmake : Engine.make A p workers chunk = .ok e) :
    ∃ jobs : List (Job A s.radix ⟨s.dim, s.isConstant, c, value⟩ p.width.toInt.toNat
        p.stackDepth.toInt.toNat c.constants.length),
      Staffed e jobs ∧
        pending.map (fun k => (k.expr, k.targets)) = jobs.map fun j => (j.expr, j.targets) := by
  obtain ⟨hprogram, -, c', hvalid, hplans⟩ := Engine.make_eq_ok hmake
  obtain rfl : c = c' := Option.some.inj (h.catalog.symm.trans hvalid.catalog)
  obtain ⟨jobs, hexprs, hcrew⟩ := exists_map_of_forall₂ (forall₂_jobs h hrhs htotal hvalid hplans)
  have htargets : (jobs.flatMap fun j => j.targets) = p.kernels.flatMap fun k => k.targets := by
    have hjobs := congrArg (List.flatMap Prod.snd) hexprs
    rw [List.flatMap_map, List.flatMap_map] at hjobs
    rw [h.flatMap_targets]
    exact hjobs.symm
  obtain ⟨-, hlt, -⟩ := stackDepth_bounds p
  refine ⟨jobs, ⟨?_, ?_, ?_, ?_, ?_, by omega⟩, hexprs⟩
  · rw [Engine.width, hprogram, ofNat_toNat_toInt hvalid.width]
  · rw [Engine.catalog, hprogram, h.catalog]
    rfl
  · rw [hprogram]
    exact hcrew
  · rw [htargets]
    exact hvalid.nodup_targets
  · intro slot hslot
    obtain ⟨k, hk, t, ht, hslot⟩ := hvalid.exists_target hslot
    have hmem : t ∈ jobs.flatMap fun j => j.targets := by
      rw [htargets]
      exact List.mem_flatMap.2 ⟨k, hk, ht⟩
    obtain ⟨j, hj, ht⟩ := List.mem_flatMap.1 hmem
    exact ⟨j, hj, t, ht, hslot⟩

/-- There is an output. -/
lemma width_pos (h : s.Compiled value scalarize p sides pending c)
    (hrhs : ∀ eq ∈ s.equations, eq.rhs.WellFormed) {W S C : Nat} {w : Lowering α}
    {jobs : List (Job A s.radix w W S C)}
    (hpending : pending.map (fun k => (k.expr, k.targets)) = jobs.map fun j => (j.expr, j.targets)) :
    0 < W := by
  have hjobs : jobs ≠ [] := by
    rintro rfl
    exact h.pending_ne_nil hrhs (List.map_eq_nil_iff.1 hpending)
  obtain ⟨j, hj⟩ := List.exists_mem_of_ne_nil jobs hjobs
  have hlength : 0 < j.targets.length := by
    rw [j.length_targets]
    exact Nat.pow_pos (EquationSystem.radix_bounds h.validate).2.1
  have hlt := j.target_lt _ (List.getElem_mem hlength)
  omega

end Staff

/-! ### Arenas -/

namespace Arena

/-- The same number of lanes and the same room in both frames. -/
structure SameShape (a b : Arena α) : Prop where
  point_width : a.point.width = b.point.width
  point_size : a.point.stack.size = b.point.stack.size
  batch_width : a.batch.width = b.batch.width
  batch_size : a.batch.stack.size = b.batch.stack.size

/-- An arena has its own shape. -/
lemma SameShape.refl (a : Arena α) : a.SameShape a := ⟨rfl, rfl, rfl, rfl⟩

/-- Storage for plans of a depth that is not negative can be laid out. -/
lemma exists_supply (depth : Int64) (hdepth : 0 ≤ depth.toInt) (x : α) :
    ∃ fresh, supply depth x = .ok fresh := by
  have hneg : ¬depth < 0 := by
    rw [Int64.lt_iff_toInt_lt, Int64.toInt_zero]
    omega
  rw [supply, make, regions, if_neg hneg]
  exact ⟨_, rfl⟩

/-- An arena of the shape that an engine makes is ready, whatever it holds. -/
theorem SameShape.ready {a fresh : Arena α} (h : a.SameShape fresh) {depth : Int64} {x : α}
    (hfresh : supply depth x = .ok fresh) (hlt : depth.toInt < 2 ^ 31) :
    a.Ready depth.toInt.toNat := by
  rw [supply] at hfresh
  split at hfresh
  case h_2 => cases hfresh
  case h_1 _ made hmake =>
    cases hfresh
    obtain ⟨⟨point, batch⟩, hregions, hmake⟩ := bind_eq_ok_iff.1 hmake
    cases hmake
    rw [regions] at hregions
    split at hregions
    · cases hregions
    · rename_i hneg
      cases hregions
      rw [Int64.lt_iff_toInt_lt, Int64.toInt_zero] at hneg
      have hmax : (max depth 1).toInt = max depth.toInt 1 := toInt_max depth 1
      have hdepth : max depth 1 = Int64.ofNat (max depth.toInt 1).toNat := by
        rw [← hmax, ofNat_toNat_toInt (by omega)]
      have hbatch : max depth 1 * Layout.lanes = Int64.ofNat ((max depth.toInt 1).toNat * 4) := by
        rw [Int64.ofNat_mul, ← hdepth]
        rfl
      have hpointSize : (((max depth.toInt 1).toNat : Nat) : Int)
          ≤ (Layout.alignSize (max depth 1) Layout.slotsPerLine).toInt := by
        rw [hdepth]
        exact Layout.le_alignSize (by omega)
      have hbatchSize : (((max depth.toInt 1).toNat * 4 : Nat) : Int)
          ≤ (Layout.alignSize (max depth 1 * Layout.lanes) Layout.slotsPerLine).toInt := by
        rw [hbatch]
        exact Layout.le_alignSize (by omega)
      have hpoint := h.point_size
      have hlane := h.batch_size
      simp only [Array.size_replicate] at hpoint hlane
      exact ⟨Frame.exists_shows h.point_width (by omega) x,
        Frame.exists_shows h.batch_width (by omega) x⟩

end Arena

/-- There is an arena for every engine. -/
lemma Engine.exists_arena (h : Engine.make A p workers chunk = .ok e) (x : α) :
    ∃ fresh, e.arena x = .ok fresh := by
  obtain ⟨-, hdepth, -⟩ := Engine.make_eq_ok h
  exact Arena.exists_supply e.depth (by rw [hdepth]; exact (stackDepth_bounds p).1) x

/-- Arenas of that shape are ready for the kernels of the program. -/
lemma Engine.ready (h : Engine.make A p workers chunk = .ok e) {a fresh : Arena α} {x : α}
    (hfresh : e.arena x = .ok fresh) (ha : a.SameShape fresh) :
    a.Ready p.stackDepth.toInt.toNat := by
  obtain ⟨-, hdepth, -⟩ := Engine.make_eq_ok h
  rw [Engine.arena, hdepth] at hfresh
  exact ha.ready hfresh (stackDepth_bounds p).2.1

/-- A compiled program that passes its checks gets an engine, and the engine gets an arena. -/
lemma EquationSystem.Compiled.exists_engine {value : Literal → α} {scalarize : Bool}
    {s : EquationSystem} {sides : List Expr} {pending : List Compile.Pending} {c : Catalog}
    (h : s.Compiled value scalarize p sides pending c)
    (hrhs : ∀ eq ∈ s.equations, eq.rhs.WellFormed) (htotal : ∀ t ∈ p.trees, t.totalWindow < 2 ^ 31)
    (hvalidate : p.validate = .ok ()) (A : Arith α) (workers chunk : Int64) (x : α) :
    ∃ e fresh, Engine.make A p workers chunk = .ok e ∧ e.arena x = .ok fresh := by
  obtain ⟨e, hmake⟩ := Engine.exists_make hvalidate
    (fun t ht => h.exists_plan hrhs htotal A ht) workers chunk
  obtain ⟨fresh, hfresh⟩ := Engine.exists_arena hmake x
  exact ⟨e, fresh, hmake, hfresh⟩

end Indicial
