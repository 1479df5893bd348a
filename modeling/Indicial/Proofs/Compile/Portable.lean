import Indicial.Proofs.Compile.References
import Indicial.Proofs.Program.RoundTrip

/-!
# Files of compiled programs

A file tells the tensors of a program apart by their names, and it has 16 bits for the length of a
name and 32 bits for its own length. These are the only limits that a compiled program can meet: all
other fields of the format are wide enough for what compiling makes of a system whose tensors and
references are as their constructors make them (`portable_of_compile`). A file writes every target and
every reference out, so that one of fewer than `2 ^ 32` bytes has no slot and no id that a word of 32
bits could not hold, and the checks accept the program even where compiling did not run them.

So a compiled program is read back, up to the identities of its tensors, exactly if names and payload
keep these limits (`IsCompiled.read_back_iff`).
-/

namespace Indicial

open Indicial.Expr

variable {α : Type}

/-! ### Programs up to identities -/

namespace Program

/-- Equal but for the identities of tensors: names and orders are the same, and different tensors of
the catalog stay different. -/
def SameButIdentities (p q : Program α) : Prop :=
  ∃ φ : Tensor → Tensor, (∀ t, (φ t).name = t.name ∧ (φ t).order = t.order) ∧
    (∀ c ∈ p.catalog, ∀ r ∈ c.constants ++ c.scalars, ∀ r' ∈ c.constants ++ c.scalars,
      φ r.tensor = φ r'.tensor → r.tensor = r'.tensor) ∧
    q = { p with catalog := p.catalog.map (Catalog.rename φ) }

/-- A program is itself up to identities. -/
lemma SameButIdentities.refl (p : Program α) : p.SameButIdentities p := by
  refine ⟨fun t => t, fun t => ⟨rfl, rfl⟩, fun c _ r _ r' _ heq => heq, ?_⟩
  have hsame : Catalog.rename (fun t => t) = fun c => c := by
    funext c
    simp [Catalog.rename]
  rw [hsame, Option.map_id']

/-! ### What a file asks of names -/

/-- What a file asks of names and of its size. The length of a name has 16 bits, that of the payload
has 32, and names tell the tensors of the catalog apart. -/
structure FitsFile (p : Program Binary64) : Prop where
  name : p.name.length < 2 ^ 16
  outputs : ∀ o ∈ p.outputs, o.name.length < 2 ^ 16
  tensors : ∀ c ∈ p.catalog, ∀ r ∈ c.constants ++ c.scalars, r.tensor.name.length < 2 ^ 16
  apart : ∀ c ∈ p.catalog, ∀ r ∈ c.constants ++ c.scalars, ∀ r' ∈ c.constants ++ c.scalars,
    r.tensor.name = r'.tensor.name → r.tensor = r'.tensor
  payload : (Write.payload p).length < 2 ^ 32

/-- Reading a name keeps the tensors met so far, and their names still tell them apart. -/
lemma Read.tensor_apart {known known' : List Tensor} {name : Bytes} {order : Nat} {t : Tensor}
    (h : Read.tensor known name order = .ok (t, known'))
    (hknown : ∀ t ∈ known, ∀ t' ∈ known, t.name = t'.name → t = t') :
    known ⊆ known' ∧ (∀ t ∈ known', ∀ t' ∈ known', t.name = t'.name → t = t') ∧ t ∈ known' := by
  rw [Read.tensor] at h
  split at h
  case h_1 s hfind =>
    split at h
    case isTrue =>
      cases h
      exact ⟨List.Subset.refl _, hknown, List.mem_of_find?_eq_some hfind⟩
    case isFalse => cases h
  case h_2 hfind =>
    split at h
    case isTrue => cases h
    case isFalse =>
      cases h
      have hnew : ∀ s ∈ known, s.name ≠ name := fun s hs => by
        simpa using List.find?_eq_none.1 hfind s hs
      refine ⟨List.subset_append_left _ _, ?_, List.mem_append_right _ (List.mem_singleton_self _)⟩
      intro t ht t' ht' heq
      rw [List.mem_append, List.mem_singleton] at ht ht'
      rcases ht with ht | rfl
      · rcases ht' with ht' | rfl
        · exact hknown t ht t' ht' heq
        · exact absurd heq (hnew t ht)
      · rcases ht' with ht' | rfl
        · exact absurd heq.symm (hnew t' ht')
        · rfl

/-- Tensors that are numbered one after the other are told apart by their names. -/
lemma Numbered.apart {known known' : List Tensor} {refs : List ScalarRef}
    (h : Numbered known refs known')
    (hknown : ∀ t ∈ known, ∀ t' ∈ known, t.name = t'.name → t = t') :
    known ⊆ known' ∧ (∀ t ∈ known', ∀ t' ∈ known', t.name = t'.name → t = t') ∧
      ∀ r ∈ refs, r.tensor ∈ known' := by
  induction h with
  | nil => exact ⟨List.Subset.refl _, hknown, nofun⟩
  | cons htensor _ ih =>
    obtain ⟨hsub, hknown', hmem⟩ := Read.tensor_apart htensor hknown
    obtain ⟨hsub', hknown'', hrefs⟩ := ih hknown'
    exact ⟨List.Subset.trans hsub hsub', hknown'', List.forall_mem_cons.2 ⟨hsub' hmem, hrefs⟩⟩

section Fits

variable {p : Program Binary64} {c : Catalog} (h : p.Fits c)

include h

/-- A file tells tensors apart by their names. -/
lemma Fits.apart : ∀ r ∈ c.constants ++ c.scalars, ∀ r' ∈ c.constants ++ c.scalars,
    r.tensor.name = r'.tensor.name → r.tensor = r'.tensor := by
  obtain ⟨known, known', hconstants, hscalars⟩ := h.numbered
  obtain ⟨-, hknown, hmem⟩ := hconstants.apart nofun
  obtain ⟨hsub, hknown', hmem'⟩ := hscalars.apart hknown
  have hmet : ∀ r ∈ c.constants ++ c.scalars, r.tensor ∈ known' := by
    intro r hr
    rcases List.mem_append.1 hr with hr | hr
    · exact hsub (hmem r hr)
    · exact hmem' r hr
  exact fun r hr r' hr' => hknown' _ (hmet r hr) _ (hmet r' hr')

/-- The references of a program that fits can be written. -/
lemma Fits.reference {r : ScalarRef} (hr : r ∈ c.constants ++ c.scalars) : r.Fits := by
  rcases List.mem_append.1 hr with hr | hr
  · exact (h.constants.2 r hr).1
  · exact (h.scalars.2 r hr).1

end Fits

/-- A program that is read back has fitting names and a fitting size. -/
theorem FitsFile.of_decode {p q : Program Binary64} (hdecode : decode p.encode = .ok q)
    (hsame : p.SameButIdentities q) : p.FitsFile := by
  obtain ⟨φ, hφ, hinj, hq⟩ := hsame
  obtain ⟨-, hid, hlt, ⟨c', hfits⟩, reserved, hreserved, hframe⟩ := decode_ok_iff.1 hdecode
  have hid' : p.id.length = 16 := by
    rw [hq] at hid
    exact hid
  have hpayload : Write.payload p = Write.payload q :=
    calc Write.payload p = p.encode.drop headerSize := (drop_frame rfl hid' _).symm
      _ = (frame reserved q.id (Write.payload q)).drop headerSize := by rw [hframe]
      _ = Write.payload q := drop_frame hreserved hid _
  rw [← hpayload] at hlt
  subst hq
  obtain ⟨c, hc, rfl⟩ := Option.map_eq_some_iff.1 hfits.catalog
  refine ⟨hfits.name, fun o ho => (hfits.outputs.2 o ho).name, ?_, ?_, hlt⟩
  · intro c₁ hc₁ r hr
    obtain rfl := Option.some.inj (hc.symm.trans hc₁)
    rw [← (hφ r.tensor).1]
    exact (hfits.reference (Catalog.mem_rename hr)).name
  · intro c₁ hc₁ r hr r' hr' hname
    obtain rfl := Option.some.inj (hc.symm.trans hc₁)
    -- The names are those that the file has, and there they stand for one tensor.
    rw [← (hφ r.tensor).1, ← (hφ r'.tensor).1] at hname
    exact hinj c hc r hr r' hr'
      (hfits.apart _ (Catalog.mem_rename hr) _ (Catalog.mem_rename hr') hname)

end Program

namespace EquationSystem

/-- A tensor is read on a right side. -/
def IsRead (s : EquationSystem) (t : Tensor) : Prop := ∃ eq ∈ s.equations, t ∈ eq.rhs.tensors

/-- Expressions, tensors and references are as their constructors make them. -/
structure WellMade (s : EquationSystem) : Prop where
  rhs : ∀ eq ∈ s.equations, Built eq.rhs
  tensors : ∀ t, s.IsRead t → t.name ≠ [] ∧ t.order ≤ Tensor.maxOrder
  references : ∀ eq ∈ s.equations, ∀ r, scalar r ∈ eq.rhs.postorder →
    r.component.size = r.tensor.order ∧ r.derivs.size ≤ Coord.capacity

/-- Constructors make well-formed right sides. -/
lemma WellMade.wellFormed {s : EquationSystem} (h : s.WellMade) :
    ∀ eq ∈ s.equations, eq.rhs.WellFormed := fun eq heq => (h.rhs eq heq).wellFormed

/-- A right side reads the tensors of the system. -/
lemma WellMade.reads {s : EquationSystem} (h : s.WellMade) {eq : Equation} (heq : eq ∈ s.equations) :
    eq.rhs.Reads s.IsRead (ScalarRef.RefersTo s.IsRead) := by
  have hread : ∀ {n : Expr} {t : Tensor}, n ∈ eq.rhs.postorder → n.symbol? = some t → s.IsRead t := by
    intro n t hn ht
    refine ⟨eq, heq, ?_⟩
    rw [Expr.tensors, List.mem_eraseDups]
    exact List.mem_filterMap.2 ⟨n, hn, ht⟩
  rw [reads_iff_postorder]
  intro n hn
  constructor
  · rintro symbol labels rfl
    exact hread hn rfl
  · rintro r rfl
    obtain ⟨hcomponent, hderivs⟩ := h.references eq heq r hn
    exact ⟨hread hn rfl, hcomponent, hderivs⟩

end EquationSystem

/-! ### Sizes of compiled programs -/

/-- A kernel holds four bytes for each of its targets. -/
lemma Program.Write.length_targets_le (kernels : List (Kernel Binary64)) :
    (kernels.flatMap fun k => k.targets).length * 4 ≤ (kernels.flatMap Write.kernel).length := by
  induction kernels with
  | nil => exact Nat.le_refl _
  | cons k kernels ih =>
    have htargets : k.targets.length * 4 ≤ (k.targets.flatMap Write.word).length :=
      Bytes.mul_le_length_flatMap fun w _ => (Write.length_word w).ge
    have hkernel : (k.targets.flatMap Write.word).length ≤ (Write.kernel k).length := by
      simp only [Write.kernel, List.length_append]
      omega
    rw [List.flatMap_cons, List.flatMap_cons, List.length_append, List.length_append]
    omega

namespace Compile

variable {scalarize : Bool} {s : EquationSystem} {number D : Nat} {eq : Equation} {side : Expr}
  {ks pending : List Pending}

/-- Kernels carry the numbers of their equations. -/
lemma equation_of_lower {base : Int64} (h : lower scalarize s number eq side base = .ok ks)
    {k : Pending} (hk : k ∈ ks) : k.equation = number := by
  rw [lower] at h
  split at h
  · obtain ⟨parts, -, h⟩ := bind_eq_ok_iff.1 h
    cases h
    obtain ⟨entry, -, rfl⟩ := List.mem_map.1 hk
    rfl
  · obtain ⟨targets, -, h⟩ := bind_eq_ok_iff.1 h
    cases h
    rw [List.mem_singleton.1 hk]

/-- Kernels belong to equations of the list. -/
lemma equation_lt_of_lowerAll {base : Int64} {l : List (Equation × Expr)}
    (h : lowerAll scalarize s number base l = .ok pending) {k : Pending} (hk : k ∈ pending) :
    k.equation < number + l.length := by
  induction l generalizing number base pending with
  | nil =>
    cases h
    cases hk
  | cons entry l ih =>
    obtain ⟨first, hfirst, h⟩ := bind_eq_ok_iff.1 h
    obtain ⟨others, hothers, h⟩ := bind_eq_ok_iff.1 h
    cases h
    rw [List.length_cons]
    rcases List.mem_append.1 hk with hk | hk
    · rw [equation_of_lower hfirst hk]
      omega
    · have hlt := ih hothers hk
      omega

/-- There are no more blocks than slots. -/
lemma length_le_start (hD : 0 < D) (equations : List Equation) :
    equations.length ≤ start D equations equations.length := by
  induction equations with
  | nil => exact Nat.zero_le _
  | cons eq equations ih =>
    have hblock : 0 < D ^ eq.lhs.order := Nat.pow_pos hD
    rw [List.length_cons, start_succ]
    omega

end Compile

namespace EquationSystem

variable {value : Literal → α} {options : Compile.Options} {scalarize : Bool} {id : Bytes}
  {s : EquationSystem} {p : Program α} {sides : List Expr} {pending : List Compile.Pending}
  {c : Catalog}

section Compiled

variable (h : s.Compiled value scalarize p sides pending c)

include h

/-- The catalog refers to tensors that are read on a right side. -/
theorem Compiled.refersTo (hmade : s.WellMade) {r : ScalarRef} (hr : r ∈ c.constants ++ c.scalars) :
    r.RefersTo s.IsRead :=
  h.references_in (ComponentsIn.refersTo _) hmade.wellFormed (fun _ => hmade.reads) hr

/-- The output of an equation fits the format. -/
lemma Compiled.output_fits (hmade : s.WellMade)
    (hend : Compile.start s.radix s.equations s.equations.length < 2 ^ 31) {o : Output}
    (ho : o ∈ p.outputs) (hname : o.name.length < 2 ^ 16) : o.Fits := by
  obtain ⟨j, hj⟩ := List.mem_iff_getElem?.1 ho
  have houtput : (Compile.outputs s.dim (Int64.ofNat 0) s.equations)[j]?
      = (s.equations[j]?).map fun eq => ⟨eq.lhs.name, Int64.ofNat eq.lhs.order,
        Int64.ofNat (0 + Compile.start s.radix s.equations j), eq.order⟩ :=
    Compile.getElem?_outputs (radix_bounds h.validate).1
      (fun eq heq => ordered h.validate hmade.wellFormed heq) j
  rw [Nat.zero_add, show Int64.ofNat 0 = 0 from rfl, ← h.outputs, hj, eq_comm,
    Option.map_eq_some_iff] at houtput
  obtain ⟨eq, heq, rfl⟩ := houtput
  have hmem := List.mem_of_getElem? heq
  have hordered := ordered h.validate hmade.wellFormed hmem
  have horder : eq.lhs.order ≤ 8 := by
    rw [hordered.lhs]
    exact hordered.small
  have hstart := Compile.start_add_le (D := s.radix) heq
  refine ⟨hname, ?_, ?_, hordered.small⟩
  · rw [Int64.toInt_ofNat_of_lt (by omega)]
    omega
  · rw [Int64.toInt_ofNat_of_lt (by omega)]
    omega

end Compiled

/-- A file holds four bytes for each slot of the outputs. -/
lemma Compiled.start_le {p : Program Binary64} {value : Literal → Binary64}
    (h : s.Compiled value scalarize p sides pending c)
    (hrhs : ∀ eq ∈ s.equations, eq.rhs.WellFormed) :
    Compile.start s.radix s.equations s.equations.length * 4 ≤ (Program.Write.payload p).length := by
  have hslots := (h.targets hrhs).length_eq
  rw [← h.flatMap_targets, List.length_map, List.length_range] at hslots
  have hkernels := Program.Write.length_targets_le p.kernels
  simp only [Program.Write.payload, List.length_append]
  omega

/-- A file holds five bytes or more for each entry of the catalog. -/
lemma Compiled.length_tableOf_le_payload {p : Program Binary64} {value : Literal → Binary64}
    (h : s.Compiled value scalarize p sides pending c) (r : ScalarRef) :
    (c.tableOf r).length * 5 ≤ (Program.Write.payload p).length := by
  have hconstants : c.constants.length * 5 ≤ (c.constants.flatMap Program.Write.reference).length :=
    Bytes.mul_le_length_flatMap fun r _ => Program.Write.length_reference_ge r
  have hscalars : c.scalars.length * 5 ≤ (c.scalars.flatMap Program.Write.reference).length :=
    Bytes.mul_le_length_flatMap fun r _ => Program.Write.length_reference_ge r
  simp only [Program.Write.payload, h.catalog, Option.getD_some, Program.Write.references,
    List.length_append]
  rw [Catalog.tableOf]
  split <;> omega

/-- A program has the id that it is given, and its kernels have the numbers of equations. -/
lemma header_of_compile (hcompile : s.compile value options id = .ok p) :
    p.id = id ∧ ∀ kernel ∈ p.kernels, ∃ j < s.equations.length, kernel.equation = Int64.ofNat j := by
  obtain ⟨⟨⟩, -, h⟩ := bind_eq_ok_iff.1 hcompile
  obtain ⟨sides, hsides, h⟩ := bind_eq_ok_iff.1 h
  obtain ⟨pending, hpending, h⟩ := bind_eq_ok_iff.1 h
  obtain ⟨refs, -, h⟩ := bind_eq_ok_iff.1 h
  obtain ⟨kernels, hkernels, h⟩ := bind_eq_ok_iff.1 h
  rw [liftM_eq_ok_iff] at hsides hpending
  have hnumbers : ∀ kernel ∈ kernels, ∃ j < s.equations.length, kernel.equation = Int64.ofNat j := by
    intro kernel hkernel
    obtain ⟨k, hk, hflat⟩ := exists_of_mem_right (mapM_eq_ok_iff.1 hkernels) hkernel
    obtain ⟨t, -, hflat⟩ := bind_eq_ok_iff.1 hflat
    cases hflat
    have hlt := Compile.equation_lt_of_lowerAll hpending hk
    rw [List.length_zip] at hlt
    exact ⟨k.equation, by omega, rfl⟩
  split at h
  · obtain ⟨⟨⟩, -, h⟩ := bind_eq_ok_iff.1 h
    cases h
    exact ⟨rfl, hnumbers⟩
  · cases h
    exact ⟨rfl, hnumbers⟩

/-- A compiled program passes its checks and fits the format, if names and payload do. -/
theorem portable_of_compile {p : Program Binary64} (hmade : s.WellMade)
    (hcompile : s.compile Literal.toBinary64 options id = .ok p) (hid : id.length = 16)
    (hfits : p.FitsFile) : p.validate = .ok () ∧ ∃ c, p.Portable c := by
  obtain ⟨sides, pending, c, h⟩ := s.compile_eq_ok hcompile
  obtain ⟨hpid, hnumbers⟩ := header_of_compile hcompile
  obtain ⟨hdim, hpos, hle⟩ := radix_bounds h.validate
  have hend := h.start_le hmade.wellFormed
  have hcount := Compile.length_le_start hpos s.equations
  have hrefs := fun r hr => h.refersTo hmade (r := r) hr
  have hpayload := hfits.payload
  -- The length of the payload bounds the slots and the entries of both tables.
  have hvalid : p.Valid c := by
    refine h.valid hmade.wellFormed (by omega) fun r => ?_
    have htable := h.length_tableOf_le_payload r
    omega
  refine ⟨hvalid.validate, c, ?_⟩
  exact {
    catalog := h.catalog
    id := by rw [hpid, hid]
    name := hfits.name
    dim := by
      have hbounds := dim_bounds h.validate
      rw [h.dim]
      omega
    named := fun r hr => (hmade.tensors _ (hrefs r hr).tensor).1
    distinct := hfits.apart c h.catalog
    references := fun r hr => ⟨hfits.tensors c h.catalog r hr, (hrefs r hr).component,
      (hmade.tensors _ (hrefs r hr).tensor).2, (hrefs r hr).derivs⟩
    outputs := fun o ho => h.output_fits hmade (by omega) ho (hfits.outputs o ho)
    equations := by
      intro kernel hkernel
      obtain ⟨j, hj, hequation⟩ := hnumbers kernel hkernel
      rw [hequation, Int64.toInt_ofNat_of_lt (by omega)]
      omega
    payload := hpayload }

end EquationSystem

/-- What a well-made system is compiled to. -/
def Program.IsCompiled (p : Program Binary64) : Prop :=
  ∃ (s : EquationSystem) (options : Compile.Options) (id : Bytes),
    s.WellMade ∧ s.compile Literal.toBinary64 options id = .ok p ∧ id.length = 16

/-- A compiled program is read back from its file, up to the identities of its tensors, exactly if its
names and its payload fit. -/
theorem Program.IsCompiled.read_back_iff {p : Program Binary64} (h : p.IsCompiled) :
    (∃ q, decode p.encode = .ok q ∧ p.SameButIdentities q) ↔ p.FitsFile := by
  constructor
  · rintro ⟨q, hdecode, hsame⟩
    exact .of_decode hdecode hsame
  · intro hfits
    obtain ⟨s, options, id, hmade, hcompile, hid⟩ := h
    obtain ⟨hvalid, c, hportable⟩ := s.portable_of_compile hmade hcompile hid hfits
    obtain ⟨sides, pending, c', hcompiled⟩ := s.compile_eq_ok hcompile
    obtain rfl : c = c' := Option.some.inj (hportable.catalog.symm.trans hcompiled.catalog)
    obtain ⟨refs, -, rfl⟩ := hcompiled.references
    refine ⟨_, hportable.decode_encode_of_marked hvalid (Catalog.marked_ofRefs _),
      Tensor.numbered (mentioned (.ofRefs refs.flatten)), fun t => ⟨rfl, rfl⟩, ?_, ?_⟩
    · intro c hc r hr r' hr' heq
      have hname := congrArg Tensor.name heq
      exact hfits.apart c hc r hr r' hr' hname
    · rw [hcompiled.catalog, Option.map_some]

end Indicial
