import Indicial.Proofs.Compile.Runnable
import Indicial.Proofs.Compile.Value
import Indicial.Proofs.Plan.Value
import Mathlib.Algebra.Group.Ext

/-!
# Compiled systems compute their right sides

The passes of compilation put together: a compiled program is valid, so there is an engine for it; its
kernels compute the windows of what was lowered, each component at its target; the windows read what
the catalog lists, and under an exact interpretation they hold values; and what was lowered has the
values of the expanded right sides. So an output slot holds the value of the expanded right side at the
assignment that the slot is named for, whether the system is compiled to scalar or to tensor kernels
(`compile_computes`).
-/

namespace Indicial

open Indicial.Expr Odometer Indicial.Valuation

/-! ### Reading through the catalog -/

section Reading

variable {α : Type} {A : Arith α} {D : Nat} {value : Literal → α} {s : EquationSystem} {c : Catalog}
  {n : Expr} {read read' : ScalarRef → α}

/-- A window depends only on what is read for the references of the nodes. -/
lemma Expr.window_congr (hD : 0 < D) (hle : D ≤ 256) (hdim : s.dim = Int64.ofNat D)
    (hn : n.WellFormed) (h : ∀ m ∈ n.postorder, ∀ rs, Compile.nodeRefs s m = .ok rs →
      ∀ r ∈ rs, read r = read' r) :
    n.window A D ⟨s.dim, s.isConstant, c, value⟩ read
      = n.window A D ⟨s.dim, s.isConstant, c, value⟩ read' := by
  induction n using operandsInduction with
  | leaf n hleaf =>
    have hown := h n (mem_postorder_self n)
    cases n with
    | scalar ref =>
      funext q
      rw [window, window, hown [ref] rfl ref (List.mem_singleton_self ref)]
    | tensor symbol labels =>
      rw [Compile.nodeRefs, hdim, leafReferences_eq_ok hD hle hn.1 hn.2] at hown
      funext q
      refine gather_congr (fun _ _ => rfl) fun k hk => ?_
      exact hown _ rfl _ (List.mem_map_of_mem (List.mem_range.2 hk))
    | literal | delta | epsilon => rfl
    | _ => cases hleaf
  | node n l r hops ihl ihr =>
    obtain ⟨hlwf, hrwf⟩ := wellFormed_operands hops hn
    have hl := ihl hlwf fun m hm => h m ((mem_postorder_of_operands hops).2 (.inl hm))
    have hr := ihr hrwf fun m hm => h m ((mem_postorder_of_operands hops).2 (.inr (.inl hm)))
    cases n <;> cases hops <;> funext q <;> simp only [window, hl, hr]

/-- The inputs give the scalars of a catalog their numbers at a point. -/
structure Catalog.Supplied (c : Catalog) (ref : ScalarRef → α) (field : Option (Field α))
    (constants : Array α) (point : Int64) : Prop where
  constants : constants.toList = c.constants.map ref
  scalars : ∀ (i : Nat) (r : ScalarRef), c.scalars[i]? = some r →
    ∃ f, field = some f ∧ f (Int64.ofNat i) point = ref r

/-- A field is there unless no scalar is read. -/
lemma Catalog.Supplied.field_isSome {ref : ScalarRef → α} {field : Option (Field α)}
    {constants : Array α} {point : Int64} (h : c.Supplied ref field constants point) :
    field.isSome ∨ c.scalars = [] := by
  cases hscalars : c.scalars with
  | nil => exact .inr rfl
  | cons r rest =>
    obtain ⟨f, rfl, -⟩ := h.scalars 0 r (by rw [hscalars]; rfl)
    exact .inl rfl

/-- Some inputs give the scalars of a catalog their numbers. -/
lemma Catalog.exists_supplied (hsmall : c.scalars.length ≤ 2 ^ 31) (ref : ScalarRef → α)
    (point : Int64) : ∃ field constants, c.Supplied ref field constants point := by
  refine ⟨some fun id _ => ref (c.scalars.getD id.toInt.toNat default), (c.constants.map ref).toArray,
    rfl, fun i r hr => ⟨_, rfl, ?_⟩⟩
  have hi := (List.getElem?_eq_some_iff.1 hr).1
  rw [toNat_toInt_ofNat (by omega), List.getD_eq_getElem?_getD, hr, Option.getD_some]

/-- What is read for an entry of the catalog is its number, as long as ids do not wrap around. -/
lemma Catalog.Supplied.reading_eq {ref : ScalarRef → α} {field : Option (Field α)}
    {constants : Array α} {point : Int64} (h : c.Supplied ref field constants point) {r : ScalarRef}
    (hr : r ∈ c.tableOf r) (hsmall : (c.tableOf r).length ≤ 2 ^ 31) :
    c.reading (Engine.fieldOr A field) constants A.zero point r = ref r := by
  obtain ⟨k, hk⟩ := Catalog.exists_lookup? hr
  have hid := Catalog.id_eq_ok_iff.2 hk
  have hget := Catalog.lookup?_eq_some hk
  rw [Catalog.tableOf] at hget
  cases hconstant : r.constant with
  | true =>
    rw [hconstant, if_pos rfl] at hget
    have hsize : c.constants.length ≤ constants.size := by
      rw [← Array.length_toList, h.constants, List.length_map]
    let inputs : Inputs α := ⟨Engine.fieldOr A field, constants, point⟩
    have hread : inputs.constants[k]? = some (inputs.readRef c A.zero 0 r) :=
      getElem?_eq_readRef hid hconstant hsmall hsize A.zero 0
    rw [← Array.getElem?_toList, h.constants, List.getElem?_map, hget] at hread
    exact (Option.some.inj hread).symm
  | false =>
    have hpoint : point + Int64.ofNat 0 = point := Int64.add_zero _
    rw [hconstant, if_neg Bool.false_ne_true] at hget
    obtain ⟨f, rfl, hvalue⟩ := h.scalars k r hget
    rw [Catalog.reading, readRef_eq_field hid hconstant hsmall, hpoint]
    exact hvalue

end Reading

/-! ### From the system to the output vector -/

namespace EquationSystem

variable {K : Type} [ExactNumbers K]

/-- A program of a system, compiled without folding literals into floating-point numbers, whose windows
and ids fit into words of 32 bits. The ids of a program that was checked do. -/
structure CompilesTo (I : Interpretation K) (s : EquationSystem) (options : Compile.Options)
    (p : Program K) : Prop where
  compile : ∃ id, s.compile I.literal options id = .ok p
  exact_folds : s.foldsExactly options.scalarize = true
  window_lt : ∀ t ∈ p.trees, t.totalWindow < 2 ^ 31
  table_le : options.validate = true ∨
    ∀ c r, p.catalog = some c → (c.tableOf r).length ≤ 2 ^ 31

/-- An engine computes a system: when its inputs give each scalar its number at a point, the slot of
every component of an equation gets the value of the expanded right side under the assignment of the
component, which is also the one that the slot is named for. The slots of an equation follow those of the
equations before it. -/
def ComputedBy (I : Interpretation K) (s : EquationSystem) (e : Engine K) (fresh : Arena K) : Prop :=
  ∀ (field : Option (Field K)) (constants : Array K) (point : Int64),
    e.catalog.Supplied I.ref field constants point →
    ∀ (j : Nat) (eq : Equation), s.equations[j]? = some eq →
      ∃ n o, eq.rhs.expand s.isConstant = .ok n ∧ e.program.outputs[j]? = some o ∧
        o.base.toInt.toNat = Compile.start s.radix s.equations j ∧ ∀ q < s.radix ^ eq.order.length,
          o.key s.dim (Int64.ofNat q) = .ok (ScalarRef.keyOf eq.lhs.name
            ⟨(digits s.radix eq.order.length q).map Nat.toUInt8⟩ Coord.empty) ∧
          e.Yields I.arith fresh field constants point (o.base.toInt.toNat + q)
            (n.value I s.radix (ofDigits eq.order (digits s.radix eq.order.length q)))

section Computed

variable {I : Interpretation K} {s : EquationSystem} {options : Compile.Options} {p : Program K}
  {workers chunk : Int64} {e : Engine K} {fresh : Arena K}

/-- Only a system that was checked is compiled. -/
lemma CompilesTo.validate (h : s.CompilesTo I options p) : s.validate = .ok () := by
  obtain ⟨id, hcompile⟩ := h.compile
  obtain ⟨sides, pending, c, hcompiled⟩ := s.compile_eq_ok hcompile
  exact hcompiled.validate

/-- What is known of a program because a system compiles to it. -/
lemma CompilesTo.compiled (h : s.CompilesTo I options p)
    (hrhs : ∀ eq ∈ s.equations, eq.rhs.WellFormed)
    (hwidth : Compile.start s.radix s.equations s.equations.length < 2 ^ 31) :
    ∃ sides pending c, s.Compiled I.literal options.scalarize p sides pending c ∧ p.Valid c ∧
      ∀ r, (c.tableOf r).length ≤ 2 ^ 31 := by
  obtain ⟨id, hcompile⟩ := h.compile
  obtain ⟨sides, pending, c, hcompiled⟩ := s.compile_eq_ok hcompile
  refine ⟨sides, pending, c, hcompiled, ?_⟩
  rcases h.table_le with hchecked | hsmall
  · obtain ⟨c', hvalid⟩ := Program.valid_of_validate (validate_of_compile hcompile hchecked)
    obtain rfl : c = c' := Option.some.inj (hcompiled.catalog.symm.trans hvalid.catalog)
    exact ⟨hvalid, hcompiled.length_tableOf_le hvalid⟩
  · have htables := fun r => hsmall c r hcompiled.catalog
    exact ⟨hcompiled.valid hrhs hwidth htables, htables⟩

/-- There is an engine for the program, and storage for the engine. -/
lemma CompilesTo.exists_engine (h : s.CompilesTo I options p)
    (hrhs : ∀ eq ∈ s.equations, eq.rhs.WellFormed)
    (hwidth : Compile.start s.radix s.equations s.equations.length < 2 ^ 31)
    (workers chunk : Int64) :
    ∃ e fresh, Engine.make I.arith p workers chunk = .ok e ∧ e.arena 0 = .ok fresh := by
  obtain ⟨sides, pending, c, hcompiled, hvalid, -⟩ := h.compiled hrhs hwidth
  exact hcompiled.exists_engine hrhs h.window_lt hvalid.validate I.arith workers chunk 0

/-- An engine for the program has a slot for every component of every equation. -/
lemma CompilesTo.width (h : s.CompilesTo I options p)
    (hrhs : ∀ eq ∈ s.equations, eq.rhs.WellFormed)
    (hwidth : Compile.start s.radix s.equations s.equations.length < 2 ^ 31)
    (hmake : Engine.make I.arith p workers chunk = .ok e) :
    e.width = Int64.ofNat (Compile.start s.radix s.equations s.equations.length) := by
  obtain ⟨sides, pending, c, hcompiled, -⟩ := h.compiled hrhs hwidth
  obtain ⟨hprogram, -⟩ := Engine.make_eq_ok hmake
  rw [Engine.width, hprogram, hcompiled.width hrhs]

/-- There are inputs that give each scalar of the program its number. -/
lemma CompilesTo.exists_supplied (h : s.CompilesTo I options p)
    (hrhs : ∀ eq ∈ s.equations, eq.rhs.WellFormed)
    (hwidth : Compile.start s.radix s.equations s.equations.length < 2 ^ 31)
    (hmake : Engine.make I.arith p workers chunk = .ok e) (point : Int64) :
    ∃ field constants, e.catalog.Supplied I.ref field constants point := by
  obtain ⟨sides, pending, c, hcompiled, -, htables⟩ := h.compiled hrhs hwidth
  obtain ⟨hprogram, -⟩ := Engine.make_eq_ok hmake
  rw [Engine.catalog, hprogram, hcompiled.catalog, Option.getD_some]
  exact c.exists_supplied (htables default) I.ref point

variable {sides : List Expr} {pending : List Compile.Pending} {c : Catalog}
  {jobs : List (Job I.arith s.radix ⟨s.dim, s.isConstant, c, I.literal⟩ p.width.toInt.toNat
    p.stackDepth.toInt.toNat c.constants.length)}

/-- A job puts out what the expression delivers that it was made for. -/
lemma Compiled.outputAt_eq
    (h : s.Compiled I.literal options.scalarize p sides pending c)
    (hrhs : ∀ eq ∈ s.equations, eq.rhs.WellFormed) (htables : ∀ r, (c.tableOf r).length ≤ 2 ^ 31)
    (hreads : I.ReadsScalars s.isConstant) (hjobs : Staffed e jobs)
    (hpending : pending.map (fun k => (k.expr, k.targets)) = jobs.map fun j => (j.expr, j.targets))
    {field : Option (Field K)} {constants : Array K} {point : Int64}
    (hsupplied : c.Supplied I.ref field constants point) {k : Compile.Pending} (hk : k ∈ pending)
    {slot : Nat} (hslot : slot < 2 ^ 31) {x : K} (hdelivers : k.Delivers I s.radix slot x) :
    outputAt jobs (Engine.fieldOr I.arith field) constants point slot = x := by
  obtain ⟨hdim, hpos, hle⟩ := radix_bounds h.validate
  obtain ⟨τ, hτ, htarget, rfl⟩ := hdelivers
  obtain ⟨hwf, hmark, -⟩ := h.shape hrhs hk
  obtain ⟨j, hj, heq⟩ : ∃ j ∈ jobs, (j.expr, j.targets) = (k.expr, k.targets) := by
    have hmem : (k.expr, k.targets) ∈ pending.map fun k => (k.expr, k.targets) :=
      List.mem_map_of_mem hk
    rw [hpending] at hmem
    exact List.mem_map.1 hmem
  obtain ⟨hexpr, htargets⟩ := Prod.mk.inj heq
  have howner := output_eq hjobs.nodup hj (htargets ▸ htarget)
    (c.reading (Engine.fieldOr I.arith field) constants I.arith.zero point)
  rw [toInt32_ofNat_of_lt hslot, Int.toNat_natCast, hexpr] at howner
  have hread : ∀ m ∈ k.expr.postorder, ∀ rs, Compile.nodeRefs s m = .ok rs → ∀ r ∈ rs,
      c.reading (Engine.fieldOr I.arith field) constants I.arith.zero point r = I.ref r :=
    fun m hm rs hrs r hr => hsupplied.reading_eq (h.mem_tableOf_iff.2 ⟨k, hk, m, hm, rs, hrs, hr⟩)
      (htables r)
  calc outputAt jobs (Engine.fieldOr I.arith field) constants point slot
    _ = k.expr.window I.arith s.radix ⟨s.dim, s.isConstant, c, I.literal⟩
          (c.reading (Engine.fieldOr I.arith field) constants I.arith.zero point)
          (place s.radix (k.expr.outer.map τ)) := howner
    _ = k.expr.window I.arith s.radix ⟨s.dim, s.isConstant, c, I.literal⟩ I.ref
          (place s.radix (k.expr.outer.map τ)) := by
        rw [window_congr hpos (by omega) hdim hwf hread]
    _ = k.expr.value I s.radix τ := window_eq_value hpos rfl hreads hwf hmark hτ

/-- An engine for the program computes the system. -/
theorem CompilesTo.computedBy (h : s.CompilesTo I options p)
    (hrhs : ∀ eq ∈ s.equations, eq.rhs.WellFormed)
    (hx : ∀ eq ∈ s.equations, eq.rhs.exactLiterals = true) (hI : I.ExactPowers)
    (hreads : I.ReadsScalars s.isConstant)
    (hwidth : Compile.start s.radix s.equations s.equations.length < 2 ^ 31)
    (hmake : Engine.make I.arith p workers chunk = .ok e) (hfresh : e.arena 0 = .ok fresh) :
    s.ComputedBy I e fresh := by
  obtain ⟨sides, pending, c, hcompiled, hvalid, htables⟩ := h.compiled hrhs hwidth
  obtain ⟨jobs, hjobs, hpending⟩ := exists_staffed hcompiled hrhs h.window_lt hmake
  obtain ⟨hprogram, -⟩ := Engine.make_eq_ok hmake
  obtain ⟨hdim, hpos, hle⟩ := radix_bounds hcompiled.validate
  have hW : p.width.toInt = Compile.start s.radix s.equations s.equations.length := by
    rw [hcompiled.width hrhs, Int64.toInt_ofNat_of_lt (by omega)]
  intro field constants point hsupplied j eq heq
  have hcatalog : e.catalog = c := hjobs.catalog
  rw [hcatalog] at hsupplied
  have hmem : eq ∈ s.equations := List.mem_of_getElem? heq
  have hordered := ordered hcompiled.validate hrhs hmem
  obtain ⟨side, -, n, hexpand, -⟩ :=
    exists_of_getElem_left (Compile.rightSides_eq_ok hcompiled.rightSides) heq
  have hlast := Compile.start_add_le (D := s.radix) heq
  rw [hordered.lhs] at hlast
  have hbase : (Int64.ofNat (Compile.start s.radix s.equations j)).toInt.toNat
      = Compile.start s.radix s.equations j := toNat_toInt_ofNat (by omega)
  have houtput := hcompiled.getElem?_outputs hrhs heq
  rw [← hprogram] at houtput
  refine ⟨n, _, hexpand, houtput, hbase, fun q hq => ?_⟩
  constructor
  · rw [hdim]
    exact Output.key_eq_ok hle hordered.small (by rw [hordered.lhs]) hq
  · rw [hbase]
    intro a out ha hout hmemory
    have hconstants : constants.size = c.constants.length := by
      rw [← Array.length_toList, hsupplied.constants, List.length_map]
    have hcheck := hjobs.check rfl (by rw [hcatalog]; exact hsupplied.field_isSome) hconstants
    have hready := Engine.ready hmake hfresh ha
    rw [Engine.width, hprogram] at hout
    have hroom : p.width.toInt.toNat ≤ out.size := by omega
    obtain ⟨out', hrun, hvalues⟩ := hjobs.evaluate (by omega) hcheck hconstants hready point hroom
      (by omega)
    refine ⟨out', hrun, ?_⟩
    obtain ⟨n', hexpand', k, hk, hdelivers⟩ :=
      hcompiled.delivers hrhs hx h.exact_folds hI hreads heq hq
    obtain rfl : n = n' := Except.ok.inj (hexpand.symm.trans hexpand')
    rw [hvalues _ (by omega), hcompiled.outputAt_eq hrhs htables hreads hjobs hpending hsupplied hk
      (by omega) hdelivers]

end Computed

/-- A compiled system computes its expanded right sides in either mode, and so the programs of both
modes agree on every output. -/
theorem compile_computes (I : Interpretation K) (hI : I.ExactPowers) (s : EquationSystem)
    (hreads : I.ReadsScalars s.isConstant) (hrhs : ∀ eq ∈ s.equations, Built eq.rhs)
    (hx : ∀ eq ∈ s.equations, eq.rhs.exactLiterals = true)
    (hwidth : Compile.start s.radix s.equations s.equations.length < 2 ^ 31)
    (workers chunk : Int64) :
    (∀ options p, s.CompilesTo I options p →
      ∃ e fresh, Engine.make I.arith p workers chunk = .ok e ∧ e.arena 0 = .ok fresh ∧
        s.ComputedBy I e fresh) ∧
    ∀ validate validate' p p', s.CompilesTo I ⟨true, validate⟩ p →
      s.CompilesTo I ⟨false, validate'⟩ p' →
      ∃ e fresh e' fresh', Engine.make I.arith p workers chunk = .ok e ∧ e.arena 0 = .ok fresh ∧
        Engine.make I.arith p' workers chunk = .ok e' ∧ e'.arena 0 = .ok fresh' ∧
        e'.width = e.width ∧
        ∀ field constants field' constants' point, e.catalog.Supplied I.ref field constants point →
          e'.catalog.Supplied I.ref field' constants' point →
          ∀ slot < e.width.toInt.toNat, ∃ x, e.Yields I.arith fresh field constants point slot x ∧
            e'.Yields I.arith fresh' field' constants' point slot x := by
  have hwf : ∀ eq ∈ s.equations, eq.rhs.WellFormed := fun eq heq => (hrhs eq heq).wellFormed
  have hcomputes : ∀ options p, s.CompilesTo I options p →
      ∃ e fresh, Engine.make I.arith p workers chunk = .ok e ∧ e.arena 0 = .ok fresh ∧
        s.ComputedBy I e fresh := by
    intro options p h
    obtain ⟨e, fresh, hmake, hfresh⟩ := h.exists_engine hwf hwidth workers chunk
    exact ⟨e, fresh, hmake, hfresh, h.computedBy hwf hx hI hreads hwidth hmake hfresh⟩
  refine ⟨hcomputes, fun validate validate' p p' h h' => ?_⟩
  obtain ⟨e, fresh, hmake, hfresh, hcomputed⟩ := hcomputes _ p h
  obtain ⟨e', fresh', hmake', hfresh', hcomputed'⟩ := hcomputes _ p' h'
  have hW := h.width hwf hwidth hmake
  have hW' := h'.width hwf hwidth hmake'
  refine ⟨e, fresh, e', fresh', hmake, hfresh, hmake', hfresh', hW'.trans hW.symm, ?_⟩
  intro field constants field' constants' point hsupplied hsupplied' slot hslot
  rw [hW, toNat_toInt_ofNat (by omega)] at hslot
  obtain ⟨j, eq, q, heq, hq, rfl⟩ := Compile.exists_block hslot
  rw [(ordered h.validate hwf (List.mem_of_getElem? heq)).lhs] at hq
  obtain ⟨n, o, hn, -, hbase, hvalues⟩ := hcomputed field constants point hsupplied j eq heq
  obtain ⟨n', o', hn', -, hbase', hvalues'⟩ := hcomputed' field' constants' point hsupplied' j eq heq
  obtain rfl : n = n' := Except.ok.inj (hn.symm.trans hn')
  exact ⟨_, hbase ▸ (hvalues q hq).2, hbase' ▸ (hvalues' q hq).2⟩

/-- The equations `T_ji = ½ A_ik T_kj + ∂_j v_i` and `v_i = T_ij v_j` in two dimensions. -/
def flow : EquationSystem :=
  let T : Tensor := ⟨Bytes.ofString "T", 2, 0⟩
  let v : Tensor := ⟨Bytes.ofString "v", 1, 1⟩
  let A : Tensor := ⟨Bytes.ofString "A", 2, 2⟩
  let half := product (number (.exact (1 / 2))) (product (tensor A [105, 107]) (tensor T [107, 106]))
  ⟨Bytes.ofString "flow", 2,
    [⟨T, [106, 105], sum half (derivative (tensor v [105]) [106])⟩,
      ⟨v, [], product (tensor T [105, 106]) (tensor v [106])⟩], [T, v]⟩

/-- The system with its names as bytes. -/
lemma flow_eq : flow =
    let T : Tensor := ⟨[84], 2, 0⟩
    let v : Tensor := ⟨[118], 1, 1⟩
    let A : Tensor := ⟨[65], 2, 2⟩
    let half := product (number (.exact (1 / 2))) (product (tensor A [105, 107]) (tensor T [107, 106]))
    ⟨[102, 108, 111, 119], 2, [⟨T, [106, 105], sum half (derivative (tensor v [105]) [106])⟩,
      ⟨v, [], product (tensor T [105, 106]) (tensor v [106])⟩], [T, v]⟩ := rfl

/-- The tensor of a scalar and the numbers of its labels, read as one decimal number. -/
def readings : Interpretation ℚ where
  leaf symbol values := numbered (.ofValues symbol values (flow.isConstant symbol))
  ref := numbered
  float _ := 0
  power x y := Literal.exactPower x y.num
  apply _ x := x
  derive _ _ := 0
where
  numbered (r : ScalarRef) : ℚ :=
    (r.component.values ++ r.derivs.values).foldl (fun x d => 10 * x + d.toNat) (r.tensor.serial + 1)

/-- The powers of these readings agree with those that folding computes. -/
lemma readings_exactPowers : readings.ExactPowers where
  power_zero x := by simp [readings, Literal.exactPower]
  power_one x := by simp [readings, Literal.exactPower]
  power_exact p q r h := by
    simp only [Literal.pow] at h
    split at h
    · split at h
      · cases h
      · split at h
        · cases h
          simp [readings]
        · cases h
    · cases h

/-- The constructors make the right sides. -/
lemma flow_built : ∀ eq ∈ flow.equations, Built eq.rhs := by
  intro eq heq
  apply WellFormed.built
  simp only [flow, List.mem_cons, List.not_mem_nil, or_false] at heq
  rcases heq with rfl | rfl <;> simp [WellFormed, outer, number, Index.capacity, Index.exclusive,
    Index.symmetricDifference, Index.minus, kind]

/-- The system compiles, provided that its literals fold exactly and its windows are short. -/
lemma flow_compilesTo (scalarize : Bool) (hfold : flow.foldsExactly scalarize = true)
    (h : ((flow.compile readings.literal ⟨scalarize, true⟩ []).toOption.any fun p =>
      p.trees.all fun t => t.totalWindow < 2 ^ 31) = true) :
    ∃ p, flow.CompilesTo readings ⟨scalarize, true⟩ p := by
  obtain ⟨p, hcompile, htotal⟩ := toOption_any_iff.1 h
  refine ⟨p, ⟨[], hcompile⟩, hfold, fun t ht => ?_, .inl rfl⟩
  simpa using List.all_eq_true.1 htotal t ht

/-- Both modes agree on the six slots, and the slot of `T_01` holds
`½ (A_10 T_00 + A_11 T_10) + ∂_0 v_1 = ½ (310 * 100 + 311 * 110) + 210`. -/
theorem compile_computes_flow :
    ∃ p p', flow.CompilesTo readings ⟨true, true⟩ p ∧ flow.CompilesTo readings ⟨false, true⟩ p' ∧
      ∃ e fresh e' fresh', Engine.make readings.arith p 0 0 = .ok e ∧ e.arena 0 = .ok fresh ∧
        Engine.make readings.arith p' 0 0 = .ok e' ∧ e'.arena 0 = .ok fresh' ∧
        ∃ field constants field' constants',
          e.catalog.Supplied readings.ref field constants 0 ∧
          e'.catalog.Supplied readings.ref field' constants' 0 ∧
          (∀ slot < 6, ∃ x, e.Yields readings.arith fresh field constants 0 slot x ∧
            e'.Yields readings.arith fresh' field' constants' 0 slot x) ∧
          e.Yields readings.arith fresh field constants 0 1 32815 := by
  have hwf : ∀ eq ∈ flow.equations, eq.rhs.WellFormed := fun eq heq => (flow_built eq heq).wellFormed
  have hx : ∀ eq ∈ flow.equations, eq.rhs.exactLiterals = true := by decide +kernel
  have hwidth : Compile.start flow.radix flow.equations flow.equations.length < 2 ^ 31 := by
    decide +kernel
  obtain ⟨p, h⟩ := flow_compilesTo true (by decide +kernel) (by rw [flow_eq]; cbv)
  obtain ⟨p', h'⟩ := flow_compilesTo false (by decide +kernel) (by rw [flow_eq]; cbv)
  obtain ⟨hcomputes, hagree⟩ := compile_computes readings readings_exactPowers flow
    (fun _ _ => rfl) flow_built hx hwidth 0 0
  obtain ⟨e, fresh, e', fresh', hmake, hfresh, hmake', hfresh', -, hslots⟩ :=
    hagree true true p p' h h'
  obtain ⟨field, constants, hsupplied⟩ := h.exists_supplied hwf hwidth hmake 0
  obtain ⟨field', constants', hsupplied'⟩ := h'.exists_supplied hwf hwidth hmake' 0
  refine ⟨p, p', h, h', e, fresh, e', fresh', hmake, hfresh, hmake', hfresh', field, constants,
    field', constants', hsupplied, hsupplied', ?_, ?_⟩
  · have hsix : e.width.toInt.toNat = 6 := by
      rw [h.width hwf hwidth hmake]
      decide +kernel
    rw [← hsix]
    exact hslots field constants field' constants' 0 hsupplied hsupplied'
  · obtain ⟨e₁, fresh₁, hmake₁, hfresh₁, hcomputed⟩ := hcomputes _ p h
    obtain rfl : e = e₁ := Except.ok.inj (hmake.symm.trans hmake₁)
    obtain rfl : fresh = fresh₁ := Except.ok.inj (hfresh.symm.trans hfresh₁)
    obtain ⟨eq, heq, horder, hvalue⟩ : ∃ eq, flow.equations[0]? = some eq ∧ eq.order = [106, 105] ∧
        ((eq.rhs.expand flow.isConstant).toOption.all fun n =>
          n.value readings 2 (ofDigits [106, 105] [0, 1]) == 32815) = true :=
      ⟨_, rfl, by decide +kernel, by decide +kernel⟩
    have hradix : flow.radix = 2 := by decide
    obtain ⟨n, o, hn, -, hbase, hslot⟩ := hcomputed field constants 0 hsupplied 0 eq heq
    rw [hradix, horder] at hslot
    have hyields := (hslot 1 (by decide)).2
    have hdigits : digits 2 ([106, 105] : Index).length 1 = [0, 1] := by decide
    rw [hbase, hdigits, eq_of_beq (toOption_all_iff.1 hvalue n hn)] at hyields
    exact hyields

end EquationSystem

end Indicial
