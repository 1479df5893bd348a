import Indicial.Proofs.Compile.Valid
import Indicial.Proofs.Engine.Batch
import Indicial.Proofs.Tree.Faithful

/-!
# Compiled programs run

Compiling checks less than an engine does: the checks of a whole program are an option, and nothing is
planned. Nothing more is needed. A compiled program whose windows and outputs fit words of 32 bits can
be planned kernel by kernel (`Compiled.exists_plan`), and the checks accept it exactly when the ids of
the catalog fit such words too, so that it gets an engine (`compile_runnable`). Traces over large
tensors have short windows and read more components than that (`validate_refuses_traces`).
-/

namespace Indicial

variable {α : Type}

/-- Words of 32 bits can number the entries of both tables. -/
def Catalog.Numberable (c : Catalog) : Prop :=
  c.constants.length ≤ 2 ^ 31 ∧ c.scalars.length ≤ 2 ^ 31

/-- Both tables can be numbered exactly if the table of every reference can. -/
lemma Catalog.numberable_iff {c : Catalog} :
    c.Numberable ↔ ∀ r, (c.tableOf r).length ≤ 2 ^ 31 := by
  constructor
  · intro h r
    rw [tableOf]
    split
    · exact h.1
    · exact h.2
  · intro h
    exact ⟨h { (default : ScalarRef) with constant := true },
      h { (default : ScalarRef) with constant := false }⟩

namespace EquationSystem

open Indicial.Expr

variable {value : Literal → α} {scalarize : Bool} {s : EquationSystem} {p : Program α}
  {sides : List Expr} {pending : List Compile.Pending} {c : Catalog}

/-- The checks accept a compiled program exactly when its catalog can be numbered. -/
lemma Compiled.validate_iff (h : s.Compiled value scalarize p sides pending c)
    (hrhs : ∀ eq ∈ s.equations, eq.rhs.WellFormed)
    (hwidth : Compile.start s.radix s.equations s.equations.length < 2 ^ 31) :
    p.validate = .ok () ↔ c.Numberable := by
  rw [Catalog.numberable_iff]
  constructor
  · intro hvalidate
    -- Every entry of the catalog is read by a leaf, whose id was checked against the table.
    obtain ⟨c', hvalid⟩ := Program.valid_of_validate hvalidate
    obtain rfl : c = c' := Option.some.inj (h.catalog.symm.trans hvalid.catalog)
    exact h.length_tableOf_le hvalid
  · exact fun htables => (h.valid hrhs hwidth htables).validate

/-- What compiling emits without checking it is runnable. If the outputs and the windows of every tree
fit words of 32 bits, every tree can be planned, and the program passes the checks exactly when its
catalog can be numbered by such words. It then has an engine, whatever the options of the engine. -/
theorem compile_runnable (A : Arith α) {id : Bytes} (hrhs : ∀ eq ∈ s.equations, Expr.Built eq.rhs)
    (hcompile : s.compile value ⟨scalarize, false⟩ id = .ok p)
    (hwidth : Compile.start s.radix s.equations s.equations.length < 2 ^ 31)
    (htotal : ∀ t ∈ p.trees, t.totalWindow < 2 ^ 31) :
    (∀ t ∈ p.trees, ∃ plan, Plan.ofTree A t = .ok plan) ∧
      ∃ c, p.catalog = some c ∧ (p.validate = .ok () ↔ c.Numberable) ∧
        (c.Numberable → p.Valid c ∧ ∀ workers chunk, ∃ e, Engine.make A p workers chunk = .ok e) := by
  have hwf : ∀ eq ∈ s.equations, eq.rhs.WellFormed := fun eq heq => (hrhs eq heq).wellFormed
  obtain ⟨sides, pending, c, h⟩ := s.compile_eq_ok hcompile
  have hplans := fun t ht => h.exists_plan hwf htotal A (t := t) ht
  have hvalidate := h.validate_iff hwf hwidth
  refine ⟨hplans, c, h.catalog, hvalidate, fun hc => ⟨?_, fun workers chunk => ?_⟩⟩
  · exact h.valid hwf hwidth (Catalog.numberable_iff.1 hc)
  · exact Engine.exists_make (hvalidate.2 hc) hplans workers chunk

/-- The equations `u = -k u + ∂_i v_i` and `v_i = ∂_i u` in two dimensions. -/
def wave : EquationSystem :=
  let u : Tensor := ⟨Bytes.ofString "u", 0, 0⟩
  let v : Tensor := ⟨Bytes.ofString "v", 1, 1⟩
  let k : Tensor := ⟨Bytes.ofString "k", 0, 2⟩
  ⟨Bytes.ofString "wave", 2,
    [⟨u, [], .sum (.negate (.product (.tensor k []) (.tensor u []))) (.derivative (.tensor v [105]) [105])⟩,
      ⟨v, [105], .derivative (.tensor u []) [105]⟩], [u, v]⟩

/-- The system with its names as bytes. -/
lemma wave_eq : wave =
    let u : Tensor := ⟨[117], 0, 0⟩
    let v : Tensor := ⟨[118], 1, 1⟩
    let k : Tensor := ⟨[107], 0, 2⟩
    ⟨[119, 97, 118, 101], 2,
      [⟨u, [], .sum (.negate (.product (.tensor k []) (.tensor u []))) (.derivative (.tensor v [105]) [105])⟩,
        ⟨v, [105], .derivative (.tensor u []) [105]⟩], [u, v]⟩ := rfl

/-- Three kernels, one of them for each component of `v`. -/
theorem compile_runnable_wave :
    ∃ p c, wave.compile (fun _ => (0 : Int)) ⟨true, false⟩ [] = .ok p ∧ p.kernels.length = 3 ∧
      p.catalog = some c ∧ p.validate = .ok () ∧ p.Valid c ∧
      ∃ e, Engine.make Engine.integers p 2 100 = .ok e := by
  have hrhs : ∀ eq ∈ wave.equations, Expr.Built eq.rhs := by
    intro eq heq
    apply Expr.WellFormed.built
    simp only [wave, List.mem_cons, List.not_mem_nil, or_false] at heq
    rcases heq with rfl | rfl <;> simp [Expr.WellFormed, Expr.outer, Expr.kind, Index.capacity,
      Index.exclusive, Index.symmetricDifference, Index.minus]
  have hrun : ((wave.compile (fun _ => (0 : Int)) ⟨true, false⟩ []).toOption.any fun p =>
      p.kernels.length == 3 && p.trees.all (fun t => t.totalWindow < 2 ^ 31) &&
        p.catalog.any fun c => c.constants.length == 1 && c.scalars.length == 5) = true := by
    rw [wave_eq]
    cbv
  obtain ⟨p, hcompile, hrun⟩ := toOption_any_iff.1 hrun
  simp only [Bool.and_eq_true, beq_iff_eq, List.all_eq_true, decide_eq_true_eq] at hrun
  obtain ⟨⟨hkernels, htotal⟩, hrun⟩ := hrun
  obtain ⟨-, c, hc, hvalidate, hrest⟩ :=
    compile_runnable Engine.integers hrhs hcompile (by decide +kernel) htotal
  rw [hc, Option.any_some, Bool.and_eq_true, beq_iff_eq, beq_iff_eq] at hrun
  have hnumberable : c.Numberable := ⟨by omega, by omega⟩
  obtain ⟨hvalid, hmake⟩ := hrest hnumberable
  exact ⟨p, c, hcompile, hkernels, hc, hvalidate.2 hnumberable, hvalid, hmake 2 100⟩

/-- One of nine constant tensors of order eight, with its last two labels traced. -/
def traced (k : Nat) : Expr :=
  .tensor ⟨Bytes.ofString "T", 8, 2 * k + 1⟩ [97, 98, 99, 100, 101, 102, 103, 103]

/-- The other labels of it are traced, too. -/
def trace (k : Nat) : Expr := .bind (traced k) [97, 97, 98, 98, 99, 99]

/-- The nine equations `u = T_aabbccgg` in sixteen dimensions. -/
def traces : EquationSystem where
  name := Bytes.ofString "traces"
  dim := 16
  equations := (List.range 9).map fun k => ⟨⟨Bytes.ofString "u", 0, 2 * k⟩, [], trace k⟩
  unknowns := (List.range 9).map fun k => ⟨Bytes.ofString "u", 0, 2 * k⟩

/-- The components that the equations read. -/
def tracedScalars : List (List ScalarRef) :=
  (List.range 9).map fun k => (traced k).ownScalars traces.isConstant 16

/-- The constructors make each trace. -/
lemma trace_built (k : Nat) : Built (trace k) := by
  apply WellFormed.built
  simp [trace, traced, WellFormed, outer, Index.capacity]
  decide

/-- There is nothing to simplify in a trace. -/
lemma simplify_trace (k : Nat) : (trace k).simplify = .ok (trace k) := by
  rw [trace, traced]
  generalize (⟨Bytes.ofString "T", 8, 2 * k + 1⟩ : Tensor) = T
  cbv

/-- Seven different labels take sixteen values each. -/
lemma length_traced (k : Nat) : ((traced k).ownScalars traces.isConstant 16).length = 16 ^ 7 := by
  have hlabels : (Index.unique [97, 98, 99, 100, 101, 102, 103, 103]).length = 7 := by decide
  simp [traced, ownScalars, hlabels]

/-- No component is read twice: a tensor's own differ in their indices, and two tensors in their
serials. -/
lemma nodup_tracedScalars : tracedScalars.flatten.Nodup := by
  rw [tracedScalars, ← List.flatMap_def, List.nodup_flatMap]
  refine ⟨fun k _ => nodup_ownScalars (by decide) (by decide) rfl, ?_⟩
  refine List.nodup_range.imp fun {k k'} hne r hr hr' => hne ?_
  obtain ⟨q, -, rfl⟩ := List.mem_map.1 hr
  obtain ⟨q', -, h⟩ := List.mem_map.1 hr'
  have hserial := congrArg (fun r => r.tensor.serial) h
  simp only [ScalarRef.ofValues] at hserial
  omega

/-- All of them are constant. -/
lemma constant_of_mem_tracedScalars {r : ScalarRef} (hr : r ∈ tracedScalars.flatten) :
    r.constant = true := by
  obtain ⟨rs, hrs, hr⟩ := List.mem_flatten.1 hr
  obtain ⟨k, -, rfl⟩ := List.mem_map.1 hrs
  obtain ⟨q, -, rfl⟩ := List.mem_map.1 hr
  simp [ScalarRef.ofValues, isConstant, traces]

/-- A trace reads the components of its tensor. -/
lemma refs_trace (k : Nat) :
    Compile.refs traces (trace k) = .ok ((traced k).ownScalars traces.isConstant 16) := by
  have hleaf : (traced k).leafReferences traces.isConstant 16
      = .ok ((traced k).ownScalars traces.isConstant 16) :=
    ownScalars_tensor (w := ⟨16, traces.isConstant, default, fun _ => 0⟩) (by decide) (by decide)
      rfl ⟨by simp, by simp [Index.capacity]⟩
  have hread : [traced k, trace k].mapM (Compile.nodeRefs traces)
      = .ok [(traced k).ownScalars traces.isConstant 16, []] :=
    mapM_eq_ok_iff.2 (.cons hleaf (.cons rfl .nil))
  rw [Compile.refs, show (trace k).postorder = [traced k, trace k] from rfl, hread, ok_bind]
  simp [pure_eq_ok]

/-- Nothing that flattening asks for is missing, the windows included. -/
lemma trace_flattenable {k : Nat} (hk : k ∈ List.range 9) (value : Literal → α) :
    Flattenable ⟨traces.dim, traces.isConstant, .ofRefs tracedScalars.flatten, value⟩ 16 (trace k) where
  built := trace_built k
  unmarked := rfl
  dim := rfl
  one_le := by decide
  le := by decide
  denominators := by simp [trace, traced, postorder]
  epsilons := by simp [trace, traced, postorder]
  factors := by simp [trace, traced, postorder]
  scalars := by
    rw [show (trace k).postorder = [traced k, trace k] from rfl, List.forall_mem_cons]
    refine ⟨fun r hr => ?_, by simp [trace, ownScalars]⟩
    exact Catalog.mem_tableOf_ofRefs.2 (List.mem_flatten_of_mem (List.mem_map_of_mem hk) hr)
  windows := by
    have hleaf : (Index.exclusive [97, 98, 99, 100, 101, 102, 103, 103]).length = 6 := by decide
    have hroot : (Index.exclusive [97, 97, 98, 98, 99, 99]).length = 0 := by decide
    simp [trace, traced, postorder, rank, outer, hleaf, hroot]

/-- Each trace is flattened to a tree. -/
lemma trace_flatten {k : Nat} (hk : k ∈ List.range 9) (value : Literal → α) :
    ∃ t, (trace k).flatten ⟨traces.dim, traces.isConstant, .ofRefs tracedScalars.flatten, value⟩
      = .ok t := by
  refine (trace_flattenable hk value).exists_flatten (show 2 < 2 ^ 28 by decide) ?_
  rw [show (trace k).postorder = [traced k, trace k] from rfl, List.map_cons, List.sum_cons,
    length_traced]
  simp [trace, ownScalars]

/-- Compiling the equations succeeds; every kernel is a trace. -/
lemma exists_compile_traces : ∃ p, traces.compile (fun _ => (0 : Int)) ⟨false, false⟩ [] = .ok p ∧
    traces.Compiled (fun _ => (0 : Int)) false p ((List.range 9).map trace)
      ((List.range 9).map fun k => ⟨k, trace k, [Int32.ofNat k]⟩) (.ofRefs tracedScalars.flatten) := by
  have hvalidate : traces.validate = .ok () := rfl
  have hsides : Compile.rightSides traces = .ok ((List.range 9).map trace) := by
    have hexpand : (traces.equations.mapM fun eq => eq.rhs.expand traces.isConstant)
        = .ok ((List.range 9).map trace) := rfl
    have hsimplify : ((List.range 9).map trace).mapM simplify
        = .ok (((List.range 9).map trace).map id) := mapM_eq_ok_of_forall fun e he => by
      obtain ⟨k, -, rfl⟩ := List.mem_map.1 he
      exact simplify_trace k
    rw [Compile.rightSides, hexpand, ok_bind, hsimplify, List.map_id]
  have hlowered : Compile.lowerAll false traces 0 0 (traces.equations.zip ((List.range 9).map trace))
      = .ok ((List.range 9).map fun k => ⟨k, trace k, [Int32.ofNat k]⟩) := rfl
  -- What the traces read is too much to compute, so the rest is known by its lemmas.
  have hrefs : List.Forall₂ (fun k rs => Compile.refs traces (Compile.Pending.expr k) = .ok rs)
      ((List.range 9).map fun k => ⟨k, trace k, [Int32.ofNat k]⟩) tracedScalars := by
    rw [tracedScalars, List.forall₂_map_left_iff, List.forall₂_map_right_iff]
    exact List.forall₂_same.2 fun k _ => refs_trace k
  exact exists_compile hvalidate hsides hlowered hrefs
    (List.forall_mem_map.2 fun k hk => trace_flatten hk fun _ => (0 : Int)) []

/-- Nine times `16 ^ 7` constants are more than words can number. -/
lemma not_numberable_traces : ¬(Catalog.ofRefs tracedScalars.flatten).Numberable := by
  intro hnumberable
  have hsub : tracedScalars.flatten ⊆ (Catalog.ofRefs tracedScalars.flatten).constants := by
    intro r hr
    have hmem := Catalog.mem_tableOf_ofRefs.2 hr
    rwa [Catalog.tableOf, if_pos (constant_of_mem_tracedScalars hr)] at hmem
  have hle := (nodup_tracedScalars.subperm hsub).length_le.trans hnumberable.1
  simp [tracedScalars, List.length_flatten, Function.comp_def, length_traced] at hle

/-- Nine tensors with `16 ^ 7` components that are read have more than words of 32 bits can number,
although no output and no window is long. -/
theorem validate_refuses_traces :
    ∃ p : Program Int, (∀ eq ∈ traces.equations, Built eq.rhs) ∧
      traces.compile (fun _ => (0 : Int)) ⟨false, false⟩ [] = .ok p ∧
      Compile.start traces.radix traces.equations traces.equations.length < 2 ^ 31 ∧
      (∀ t ∈ p.trees, t.totalWindow < 2 ^ 31) ∧ p.validate ≠ .ok () ∧
      ∀ workers chunk e, Engine.make Engine.integers p workers chunk ≠ .ok e := by
  have hrhs : ∀ eq ∈ traces.equations, Built eq.rhs := by
    intro eq heq
    obtain ⟨k, -, rfl⟩ := List.mem_map.1 heq
    exact trace_built k
  obtain ⟨p, hcompile, h⟩ := exists_compile_traces
  have hwidth : Compile.start traces.radix traces.equations traces.equations.length < 2 ^ 31 := by
    decide +kernel
  have hrefused : p.validate ≠ .ok () := fun hvalidate =>
    not_numberable_traces
      ((h.validate_iff (fun eq heq => (hrhs eq heq).wellFormed) hwidth).1 hvalidate)
  refine ⟨p, hrhs, hcompile, hwidth, fun t ht => ?_, hrefused, fun workers chunk e hmake => ?_⟩
  · obtain ⟨kernel, hkernel, htree⟩ := List.mem_filterMap.1 ht
    obtain ⟨pending, hpending, -, t', htree', hflat⟩ := exists_of_mem_right h.kernels hkernel
    obtain rfl : t = t' := Option.some.inj (htree.symm.trans htree')
    obtain ⟨k, hk, rfl⟩ := List.mem_map.1 hpending
    exact (trace_flattenable hk _).totalWindow_lt hflat
  · obtain ⟨-, -, c, hvalid, -⟩ := Engine.make_eq_ok hmake
    exact hrefused hvalid.validate

end EquationSystem

end Indicial
