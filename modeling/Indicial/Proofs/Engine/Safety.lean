import Indicial.Proofs.Engine.Batch
import Indicial.Proofs.Plan.Safety

/-!
# Evaluating any accepted program

An engine is made of any program that passes its checks, also of one read from a file. Every kernel of
such a program has a plan, its ids are entries of the catalog and its targets are output slots, so the
evaluation of a point completes as soon as the trees are sound (`evaluate_completes`). The checks do
not make them sound: four small programs are accepted and then stopped by a fault, one for each thing
that soundness asks (`accepted_programs_stop`).
-/

namespace Indicial

variable {α : Type} {A : Arith α} {e : Engine α} {p : Program α} {workers chunk : Int64}

/-- The first point of a flat vector has its outputs at the front. -/
lemma Sink.put_origin (out : Array α) (width point : Int64) {slot : Int32} (hpos : 0 ≤ slot.toInt)
    (hlt : slot.toInt < out.size) (x : α) :
    ∃ out', Sink.put (.flat out width point) slot point x = .ok (.flat out' width point) ∧
      out'.size = out.size := by
  have hplace : ((point - point) * width + slot.toInt64).toInt = slot.toInt := by
    rw [Int64.sub_self, Int64.zero_mul, Int64.zero_add, Int32.toInt_toInt64]
  rw [Sink.put]
  simp only [hplace]
  rw [if_neg (by simp; omega)]
  exact ⟨_, rfl, Array.size_setIfInBounds⟩

namespace Engine

/-- The flat vector of one point, of a given length. -/
def OnePoint (s : Sink α) (width point : Int64) (size : Nat) : Prop :=
  ∃ out : Array α, s = .flat out width point ∧ out.size = size

/-- Sending the root window of a plan to slots that are there. -/
lemma scatter_safe {plan : Plan α} {t : Tree α} (hplan : Plan.ofTree A t = .ok plan) (hs : t.Sound)
    {S : Nat} {f : Frame α} {v : Nat → Nat → α} (hS : t.storage ≤ S) (hsmall : S < 2 ^ 63)
    (hf : f.Shows 1 S v) {targets : List Int32}
    (hlength : (targets.length : Int) = (t.size t.root).toInt) {s : Sink α} {width point : Int64}
    {size : Nat} (hsink : OnePoint s width point size)
    (htargets : ∀ slot ∈ targets, 0 ≤ slot.toInt ∧ slot.toInt < size) :
    ∃ s', scatter plan targets f point s = .ok s' ∧ OnePoint s' width point size := by
  obtain ⟨h, -, -, -⟩ := Plan.ofTree_eq hplan
  have hin := h.root_lt
  have hcount := h.components_lt hs hin
  rw [h.size_eq hin, Int64.toInt_ofNat_of_lt (by omega), Nat.cast_inj] at hlength
  rw [scatter, Plan.window_root hplan hs hS hsmall hf, ok_bind]
  refine foldlM_zipIdx_ok (P := fun _ s => OnePoint s width point size) hsink ?_
  intro k slot hslot s' hs'
  have hk : k < t.components t.root := by
    rw [← hlength]
    exact (List.getElem?_eq_some_iff.1 hslot).1
  have hresult := Plan.result_root hplan hs hS hf hk Nat.one_pos
  obtain ⟨hpos, hlt⟩ := htargets slot (List.mem_of_getElem? hslot)
  obtain ⟨out, rfl, hout⟩ := hs'
  obtain ⟨out', hput, hout'⟩ := Sink.put_origin out width point hpos (by omega)
    (v (t.first t.root + k) 0)
  refine ⟨.flat out' width point, ?_, out', rfl, hout'.trans hout⟩
  have hpoint : point + Int64.ofNat 0 = point := Int64.add_zero point
  rw [hf.width, List.range_one, List.foldlM_cons, hresult, ok_bind, hpoint, hput]
  rfl

/-- What a kernel of an accepted program is known to be. -/
structure Accepted (A : Arith α) (p : Program α) (c : Catalog) (entry : Plan α × Kernel α)
    (t : Tree α) : Prop where
  plan : Plan.ofTree A t = .ok entry.1
  kernel : p.KernelValid c entry.2 t
  mem : t ∈ p.trees

/-- Every entry of an engine is a kernel of the program whose tree was accepted and planned. -/
lemma exists_accepted {c : Catalog} (hmake : make A p workers chunk = .ok e)
    (hcatalog : p.catalog = some c) (entry : Plan α × Kernel α)
    (hentry : entry ∈ e.plans.zip p.kernels) : ∃ t, Accepted A p c entry t := by
  obtain ⟨-, -, c', hvalid, hplans⟩ := make_eq_ok hmake
  obtain rfl : c = c' := Option.some.inj (hcatalog.symm.trans hvalid.catalog)
  obtain ⟨t, ht, hplan⟩ := List.forall₂_zip hplans.flip hentry
  have hk : entry.2 ∈ p.kernels := (List.of_mem_zip hentry).2
  obtain ⟨t', hkernel⟩ := hvalid.kernel entry.2 hk
  obtain rfl : t = t' := Option.some.inj (ht.symm.trans hkernel.tree)
  exact ⟨t, hplan, hkernel, List.mem_filterMap.2 ⟨entry.2, hk, ht⟩⟩

/-- One kernel after the other, from any contents of storage. -/
lemma run_safe (hmake : make A p workers chunk = .ok e) (hsound : ∀ t ∈ p.trees, t.Sound)
    {c : Catalog} (hcatalog : p.catalog = some c) (field : Field α) {constants : Array α}
    (hconstants : constants.size = c.constants.length) {f : Frame α} {v : Nat → Nat → α}
    (hf : f.Shows 1 p.stackDepth.toInt.toNat v) {s : Sink α} {width point : Int64} {size : Nat}
    (hsink : OnePoint s width point size) (hsize : p.width.toInt ≤ size) :
    ∃ f' s', e.run A field constants point f s = .ok (f', s') ∧ OnePoint s' width point size := by
  obtain ⟨hprogram, -, -⟩ := make_eq_ok hmake
  obtain ⟨hdepth_pos, hdepth_lt, hdepth⟩ := stackDepth_bounds p
  have hloop : ∃ state, e.run A field constants point f s = .ok state ∧
      (∃ v, state.1.Shows 1 p.stackDepth.toInt.toNat v) ∧ OnePoint state.2 width point size := by
    rw [run, hprogram]
    apply foldlM_ok_of_forall (P := fun _ (state : Frame α × Sink α) =>
      (∃ v, state.1.Shows 1 p.stackDepth.toInt.toNat v) ∧ OnePoint state.2 width point size)
      ⟨⟨v, hf⟩, hsink⟩
    rintro pre ⟨plan, k⟩ post ⟨g, s⟩ hsplit ⟨⟨u, hg⟩, hs⟩
    obtain ⟨t, haccepted⟩ := exists_accepted hmake hcatalog (plan, k) (by rw [hsplit]; simp)
    have hvalid := (Plan.ofTree_eq haccepted.plan).1
    have ht := hsound t haccepted.mem
    have hroom : t.storage ≤ p.stackDepth.toInt.toNat := by
      have := hvalid.storage_eq ht
      have := hdepth t haccepted.mem
      omega
    obtain ⟨g', u', hrun, hg'⟩ := Plan.run_safe haccepted.plan ht ⟨field, constants, point⟩
      (fun i hi hkind e he => by
        have hid := haccepted.kernel.id_lt i hi e he
        rw [Program.idLimit, if_pos hkind, ← hconstants] at hid
        exact hid) hroom (by omega) hg
    obtain ⟨s', hscatter, hs'⟩ := scatter_safe haccepted.plan ht hroom (by omega) hg'
      haccepted.kernel.length_targets hs fun slot hslot => by
        have := haccepted.kernel.target_lt slot hslot
        omega
    refine ⟨(g', s'), ?_, ⟨u', hg'⟩, hs'⟩
    simp only [hrun, hscatter, ok_bind, pure_eq_ok]
  obtain ⟨⟨f', s'⟩, hrun, -, hs'⟩ := hloop
  exact ⟨f', s', hrun, hs'⟩

/-- Evaluation of a point completes when all trees of an accepted program are sound. -/
theorem evaluate_completes (hmake : make A p workers chunk = .ok e)
    (hsound : ∀ t ∈ p.trees, t.Sound) (x : α) :
    ∃ fresh, e.arena x = .ok fresh ∧
      ∀ (a : Arena α) (point : Int64) (field : Field α) (constants out : Array α),
        a.SameShape fresh → constants.size = e.catalog.constants.length →
        e.width.toInt ≤ out.size →
        ∃ out', e.evaluate A a point (some field) constants out = .ok (out', ⟨1, 0, 0⟩) ∧
          out'.size = out.size := by
  obtain ⟨hprogram, -, c, hvalid, -⟩ := make_eq_ok hmake
  obtain ⟨fresh, hfresh⟩ := exists_arena hmake x
  refine ⟨fresh, hfresh, fun a point field constants out ha hconstants hout => ?_⟩
  have hcatalog : e.catalog = c := by
    rw [catalog, hprogram, hvalid.catalog]
    rfl
  rw [hcatalog] at hconstants
  have hcheck : e.check (some field) constants = .ok () := by
    rw [check, hcatalog, if_neg (by simp), if_neg (not_not.2 hconstants)]
  obtain ⟨v, hv⟩ := (ready hmake hfresh ha).point
  obtain ⟨f', s', hrun, out', rfl, hsize⟩ := run_safe hmake hsound hvalid.catalog field
    hconstants hv (⟨out, rfl, rfl⟩ : OnePoint (.flat out e.width point) e.width point out.size)
    (by rw [← hprogram]; exact hout)
  refine ⟨out', ?_, hsize⟩
  rw [evaluate, hcheck, ok_bind, if_neg (by omega), fieldOr, Option.getD_some, hrun]
  rfl

/-- A program of one tree: the components of its root are the outputs. -/
def alone (t : Tree Int) (order : Int64) (targets : List Int32) : Program Int where
  id := []
  name := []
  dim := t.dim
  catalog := some ⟨[⟨⟨Bytes.ofString "k", 0, 0⟩, ⟨[]⟩, ⟨[]⟩, true⟩], []⟩
  outputs := [⟨Bytes.ofString "y", order, 0, []⟩]
  kernels := [⟨0, targets, some t⟩]

/-- The function with the given code, of a constant. -/
def applied (code : UInt8) : Tree Int where
  dim := 1
  tags := #[15, 9]
  left := #[-1, -1]
  outer := ⟨#[0, 0, 0], #[]⟩
  inner := ⟨#[0, 0, 0], #[]⟩
  binding := ⟨#[0, 0, 0], #[]⟩
  ids := ⟨#[0, 1, 1], #[0]⟩
  values := #[0, 0]
  funcs := #[0, code]
  offsets := #[0, 1]
  depth := 2

/-- The function with byte four exists, and the windows lie in the storage. -/
lemma applied_sound : (applied 4).Sound := ⟨by decide, by decide, by decide, by decide⟩

/-- The program with the function of byte four is evaluated at a point. -/
theorem evaluate_completes_applied :
    ∃ e fresh out', make integers (alone (applied 4) 0 [0]) 0 0 = .ok e ∧ e.arena 0 = .ok fresh ∧
      e.evaluate integers fresh 3 (some fun _ _ => 0) #[7] #[0] = .ok (out', ⟨1, 0, 0⟩) := by
  have hready : ((make integers (alone (applied 4) 0 [0]) 0 0).toOption.any fun e =>
      e.catalog.constants.length == 1 && e.width == 1) = true := by decide +kernel
  obtain ⟨e, hmake, hready⟩ := toOption_any_iff.1 hready
  simp only [Bool.and_eq_true, beq_iff_eq] at hready
  obtain ⟨fresh, hfresh, hrun⟩ := evaluate_completes hmake
    (fun t ht => by obtain rfl : t = _ := List.mem_singleton.1 ht; exact applied_sound) 0
  obtain ⟨out', hout, -⟩ := hrun fresh 3 (fun _ _ => 0) #[7] #[0] (.refl fresh)
    (by rw [hready.1]; rfl) (by rw [hready.2]; decide)
  exact ⟨e, fresh, out', hmake, hfresh, hout⟩

/-! ### What the checks let through -/

/-- A literal in a window that begins at `offset`. -/
def placed (offset : Int32) : Tree Int where
  dim := 1
  tags := #[10]
  left := #[-1]
  outer := ⟨#[0, 0], #[]⟩
  inner := ⟨#[0, 0], #[]⟩
  binding := ⟨#[0, 0], #[]⟩
  ids := ⟨#[0, 0], #[]⟩
  values := #[3]
  funcs := #[0]
  offsets := #[offset]
  depth := offset + 1

/-- The product of a vector and a number, whose own labels repeat that of the vector. -/
def doubled : Tree Int where
  dim := 2
  tags := #[10, 10, 3]
  left := #[-1, -1, 0]
  outer := ⟨#[0, 1, 1, 3], #[105, 105, 105]⟩
  inner := ⟨#[0, 0, 0, 0], #[]⟩
  binding := ⟨#[0, 0, 0, 0], #[]⟩
  ids := ⟨#[0, 0, 0, 0], #[]⟩
  values := #[3, 5, 0]
  funcs := #[0, 0, 0]
  offsets := #[0, 2, 3]
  depth := 7

/-- An engine accepts the program, and the fault stops the evaluation of a point. -/
def Stops (p : Program Int) (f : Fault) : Prop :=
  ∃ e fresh, make integers p 0 0 = .ok e ∧ e.arena 0 = .ok fresh ∧
    e.evaluate integers fresh 0 (some fun _ _ => 0) #[7] #[0, 0, 0, 0] = .error (.fault f)

/-- Making and evaluating the program shows that it stops. -/
lemma stops_of {p : Program Int} {f : Fault} (h : (match make integers p 0 0 with
      | .error _ => false
      | .ok e => match e.arena 0 with
        | .error _ => false
        | .ok fresh => match e.evaluate integers fresh 0 (some fun _ _ => 0) #[7] #[0, 0, 0, 0] with
          | .error (.fault g) => g == f
          | _ => false) = true) : Stops p f := by
  split at h
  · cases h
  case h_2 e hmake =>
    split at h
    · cases h
    case h_2 fresh hfresh =>
      split at h
      case h_1 g hrun =>
        obtain rfl : g = f := eq_of_beq h
        exact ⟨e, fresh, hmake, hfresh, hrun⟩
      · cases h

/-- Four programs are accepted and stop: for an unknown function, for a window before the storage, for
one behind it, and for a product whose own labels repeat. -/
theorem accepted_programs_stop :
    Stops (alone (applied 200) 0 [0]) (.unknownFunction 200) ∧
      Stops (alone (placed (-1)) 0 [0]) .storage ∧
      Stops (alone (placed 2147483647) 0 [0]) .storage ∧
      Stops (alone doubled 2 [0, 1, 2, 3]) .storage :=
  ⟨stops_of (by decide +kernel), stops_of (by decide +kernel), stops_of (by decide +kernel),
    stops_of (by decide +kernel)⟩

end Engine

end Indicial
