import Indicial.Proofs.Catalog
import Indicial.Proofs.Program.Codec
import Indicial.Proofs.Tree.Valid

/-!
# Reading back what was written

Tensors are told apart by identity, and a file knows only their names. So a program is read back with
its tensors renamed: they are numbered in the order in which the tables first mention them. `retag`
says what a renaming makes of a catalog; every reference is marked by the table it stands in, which is
what reading goes by. Where all references have that mark already, as those of compiled programs do,
nothing but tensors is renamed (`retag_eq_rename`, `Portable.decode_encode_of_marked`).

Main statements: `decode_encode`, a program that fits the format is read back up to that renaming, and
`encode_decode`, a file that is read is what is written for its program but for the reserved bytes.
-/

namespace Indicial

/-! ### Renaming tensors -/

/-- The same scalar of another tensor, in the table of the constants or in the other. -/
def ScalarRef.retag (φ : Tensor → Tensor) (constant : Bool) (r : ScalarRef) : ScalarRef :=
  ⟨φ r.tensor, r.component, r.derivs, constant⟩

/-- The catalog with its tensors renamed. -/
def Catalog.retag (φ : Tensor → Tensor) (c : Catalog) : Catalog where
  constants := c.constants.map (ScalarRef.retag φ true)
  scalars := c.scalars.map (ScalarRef.retag φ false)

/-- The catalog with other tensors in its references, and all else as it was. -/
def Catalog.rename (φ : Tensor → Tensor) (c : Catalog) : Catalog where
  constants := c.constants.map fun r => { r with tensor := φ r.tensor }
  scalars := c.scalars.map fun r => { r with tensor := φ r.tensor }

/-- A renaming keeps every reference of a catalog but for its tensor. -/
lemma Catalog.mem_rename {φ : Tensor → Tensor} {c : Catalog} {r : ScalarRef}
    (h : r ∈ c.constants ++ c.scalars) :
    { r with tensor := φ r.tensor } ∈ (c.rename φ).constants ++ (c.rename φ).scalars := by
  rw [rename, ← List.map_append]
  exact List.mem_map_of_mem h

/-- Every reference has the mark of the table it stands in. -/
structure Catalog.Marked (c : Catalog) : Prop where
  constants : ∀ r ∈ c.constants, r.constant = true
  scalars : ∀ r ∈ c.scalars, r.constant = false

/-- The references that a catalog is made of are sorted into its tables by their marks. -/
lemma Catalog.marked_ofRefs (refs : List ScalarRef) : (ofRefs refs).Marked :=
  ⟨fun _ => constant_of_mem_constants, fun _ => constant_of_mem_scalars⟩

/-- References that have their marks change their tensors only. -/
lemma Catalog.Marked.retag_eq {c : Catalog} (h : c.Marked) (φ : Tensor → Tensor) :
    c.retag φ = c.rename φ := by
  have htable {constant : Bool} {refs : List ScalarRef} (h : ∀ r ∈ refs, r.constant = constant) :
      refs.map (ScalarRef.retag φ constant) = refs.map fun r => { r with tensor := φ r.tensor } := by
    refine List.map_congr_left fun r hr => ?_
    rw [ScalarRef.retag, ← h r hr]
  rw [retag, rename, htable h.constants, htable h.scalars]

/-- The program with the tensors of its catalog renamed. -/
def Program.retag {α : Type} (φ : Tensor → Tensor) (p : Program α) : Program α :=
  { p with catalog := p.catalog.map (Catalog.retag φ) }

/-- The number of a tensor is its place in the order of first mention. -/
def Tensor.numbered (mentioned : List Tensor) (t : Tensor) : Tensor :=
  ⟨t.name, t.order, mentioned.eraseDups.idxOf t⟩

/-- A checked tree fits the format. -/
lemma Tree.Valid.fits {α : Type} {t : Tree α} (h : t.Valid) (hnodes : t.nodes < 2 ^ 32) :
    t.Fits where
  dim := by
    have := h.dim
    omega
  nodes := hnodes
  funcs := h.funcs
  left := h.left
  outer := ⟨h.outer.size, h.outer.data_lt.trans (by decide)⟩
  inner := ⟨h.inner.size, h.inner.data_lt.trans (by decide)⟩
  binding := ⟨h.binding.size, h.binding.data_lt.trans (by decide)⟩
  ids := ⟨h.ids.size, h.ids.data_lt.trans (by decide)⟩
  values := h.values
  offsets := h.offsets

namespace Program

variable {α : Type}

/-- Where the references have their marks, nothing but the tensors of the catalog changes. -/
lemma retag_eq_rename {p : Program α} (h : ∀ c ∈ p.catalog, c.Marked) (φ : Tensor → Tensor) :
    p.retag φ = { p with catalog := p.catalog.map (Catalog.rename φ) } := by
  rw [retag, Option.map_congr fun c hc => (h c hc).retag_eq φ]

/-- The references of a program that was read have their marks. -/
lemma marked_of_decode {b : Bytes} {p : Program Binary64} (h : decode b = .ok p) :
    ∀ c ∈ p.catalog, c.Marked := by
  obtain ⟨-, -, -, ⟨c, hfits⟩, -⟩ := decode_ok_iff.1 h
  intro c' hc'
  obtain rfl : c = c' := Option.some.inj (hfits.catalog.symm.trans hc')
  exact ⟨fun r hr => (hfits.constants.2 r hr).2, fun r hr => (hfits.scalars.2 r hr).2⟩

/-! ### What a renaming keeps -/

section Retag

variable (φ : Tensor → Tensor)

/-- The number of ids does not depend on the tensors. -/
lemma idLimit_retag (c : Catalog) (t : Tree α) (i : Nat) :
    idLimit (c.retag φ) t i = idLimit c t i := by
  simp only [idLimit, Catalog.retag, List.length_map]

/-- The check of the ids does not depend on the tensors. -/
lemma validateIds_retag (c : Catalog) (number : Nat) (t : Tree α) :
    validateIds (c.retag φ) number t = validateIds c number t := by
  funext i
  rw [validateIds, validateIds, idLimit_retag]

/-- The check of the kernels does not depend on the tensors. -/
lemma validateKernels_retag (p : Program α) (c : Catalog) (number : Nat) (kernels : List (Kernel α)) :
    (p.retag φ).validateKernels (c.retag φ) number kernels
      = p.validateKernels c number kernels := by
  induction kernels generalizing number with
  | nil => rfl
  | cons k kernels ih =>
    have hkernel : (p.retag φ).validateKernel (c.retag φ) number k = p.validateKernel c number k := by
      simp only [validateKernel, validateIds_retag]
      rfl
    rw [validateKernels, validateKernels, hkernel, ih]

/-- Checking a program never looks at a tensor. -/
lemma validate_retag (p : Program α) : (p.retag φ).validate = p.validate := by
  cases hcatalog : p.catalog with
  | none => simp only [validate, retag, hcatalog, Option.map_none]
  | some c =>
    have hretag : (p.retag φ).catalog = some (c.retag φ) := by rw [retag, hcatalog]; rfl
    rw [validate, validate, hretag, hcatalog]
    simp only [validateKernels_retag φ p c]
    rfl

/-- A file knows names and orders only. -/
lemma payload_retag {p : Program Binary64} (hname : ∀ t, (φ t).name = t.name)
    (horder : ∀ t, (φ t).order = t.order) : Write.payload (p.retag φ) = Write.payload p := by
  have href (constant : Bool) (refs : List ScalarRef) :
      Write.references (refs.map (ScalarRef.retag φ constant)) = Write.references refs := by
    have hone (r : ScalarRef) : Write.reference (r.retag φ constant) = Write.reference r := by
      simp only [Write.reference, ScalarRef.retag, hname, horder]
    simp only [Write.references, List.length_map, List.flatMap_map, hone]
  cases hcatalog : p.catalog with
  | none => simp only [Write.payload, retag, hcatalog, Option.map_none]
  | some c =>
    simp only [Write.payload, retag, hcatalog, Option.map_some, Option.getD_some, Catalog.retag, href]

end Retag

/-! ### Numbering tensors -/

section Numbering

variable {mentioned : List Tensor} (seen rest : List Tensor) {t : Tensor}

/-- Reading a name gives the number of its tensor, and the tensors met so far grow by it if it is
new. -/
lemma Read.tensor_numbered (hsplit : mentioned = seen ++ t :: rest)
    (hdistinct : ∀ t ∈ mentioned, ∀ t' ∈ mentioned, t.name = t'.name → t = t') (hname : t.name ≠ [])
    (horder : t.order ≤ Index.capacity) :
    Read.tensor (seen.eraseDups.map (Tensor.numbered mentioned)) t.name t.order
      = .ok (t.numbered mentioned, (seen ++ [t]).eraseDups.map (Tensor.numbered mentioned)) := by
  have hmem : t ∈ mentioned := by simp [hsplit]
  have hsame : ∀ t' ∈ seen, t'.name = t.name → t' = t := fun t' ht' =>
    hdistinct t' (by simp [hsplit, ht']) t hmem
  have hgrow : (seen ++ [t]).eraseDups
      = if t ∈ seen then seen.eraseDups else seen.eraseDups ++ [t] := by
    rw [List.eraseDups_append]
    by_cases hin : t ∈ seen <;> simp [hin, List.removeAll, List.eraseDups_cons]
  rw [Read.tensor, hgrow]
  cases hfind : (seen.eraseDups.map (Tensor.numbered mentioned)).find? fun s => s.name == t.name with
  | some s =>
    obtain ⟨t', ht', rfl⟩ := List.mem_map.1 (List.mem_of_find?_eq_some hfind)
    have hname' : t'.name = t.name := by simpa [Tensor.numbered] using List.find?_some hfind
    obtain rfl := hsame t' (List.mem_eraseDups.1 ht') hname'
    rw [if_pos (List.mem_eraseDups.1 ht')]
    exact if_pos rfl
  | none =>
    have hnot : t ∉ seen := by
      intro hin
      have hnone := List.find?_eq_none.1 hfind (t.numbered mentioned)
        (List.mem_map_of_mem (List.mem_eraseDups.2 hin))
      simp [Tensor.numbered] at hnone
    have hplace : mentioned.eraseDups.idxOf t = seen.eraseDups.length := by
      rw [hsplit, List.eraseDups_append, List.idxOf_append_of_notMem (by simpa using hnot)]
      simp [List.removeAll, hnot, List.eraseDups_cons]
    rw [if_neg hnot]
    dsimp only
    rw [if_neg (by simp [hname, Nat.not_lt.2 horder]), List.length_map, ← hplace, List.map_append]
    rfl

/-- Reading the references of a table numbers their tensors. -/
lemma numbered_retag {refs : List ScalarRef} {constant : Bool}
    (hsplit : mentioned = seen ++ refs.map ScalarRef.tensor ++ rest)
    (hdistinct : ∀ t ∈ mentioned, ∀ t' ∈ mentioned, t.name = t'.name → t = t')
    (hname : ∀ r ∈ refs, r.tensor.name ≠ []) (horder : ∀ r ∈ refs, r.tensor.order ≤ Index.capacity) :
    Numbered (seen.eraseDups.map (Tensor.numbered mentioned))
      (refs.map (ScalarRef.retag (Tensor.numbered mentioned) constant))
      ((seen ++ refs.map ScalarRef.tensor).eraseDups.map (Tensor.numbered mentioned)) := by
  induction refs generalizing seen with
  | nil =>
    rw [List.map_nil, List.map_nil, List.append_nil]
    exact .nil
  | cons r refs ih =>
    rw [List.forall_mem_cons] at hname horder
    have hhead : mentioned = seen ++ r.tensor :: (refs.map ScalarRef.tensor ++ rest) := by
      rw [hsplit]
      simp
    have htail : mentioned = (seen ++ [r.tensor]) ++ refs.map ScalarRef.tensor ++ rest := by
      rw [hsplit]
      simp
    have hrest := ih (seen ++ [r.tensor]) htail hname.2 horder.2
    rw [List.append_assoc, List.singleton_append] at hrest
    exact .cons (Read.tensor_numbered _ _ hhead hdistinct hname.1 horder.1) hrest

end Numbering

/-! ### Programs that fit -/

/-- What the format asks of a program besides the checks: texts, numbers and the whole payload fit
their fields, and names tell the tensors of the catalog apart. -/
structure Portable (p : Program Binary64) (c : Catalog) : Prop where
  catalog : p.catalog = some c
  id : p.id.length = 16
  name : p.name.length < 2 ^ 16
  dim : 0 ≤ p.dim.toInt ∧ p.dim.toInt < 2 ^ 16
  named : ∀ r ∈ c.constants ++ c.scalars, r.tensor.name ≠ []
  distinct : ∀ r ∈ c.constants ++ c.scalars, ∀ r' ∈ c.constants ++ c.scalars,
    r.tensor.name = r'.tensor.name → r.tensor = r'.tensor
  references : ∀ r ∈ c.constants ++ c.scalars, r.Fits
  outputs : ∀ o ∈ p.outputs, o.Fits
  equations : ∀ k ∈ p.kernels, 0 ≤ k.equation.toInt ∧ k.equation.toInt < 2 ^ 32
  payload : (Write.payload p).length < 2 ^ 32

section Portable

variable {p : Program Binary64} {c : Catalog}

/-- Every count of a payload is at most the length of what it counts. -/
lemma Write.le_length_kernel {k : Kernel Binary64} {t : Tree Binary64} (ht : k.tree = some t) :
    k.targets.length ≤ (Write.kernel k).length ∧ t.nodes ≤ (Write.kernel k).length := by
  have htargets : k.targets.length * 4 ≤ (k.targets.flatMap Write.word).length :=
    Bytes.mul_le_length_flatMap fun w _ => (Write.length_word w).ge
  simp only [Write.kernel, ht, Option.getD_some, Write.tree, List.length_append,
    Array.length_toList, Tree.nodes]
  omega

/-- The kernels of a checked program fit the format. -/
lemma Portable.kernel_fits (h : p.Portable c) (hvalid : p.Valid c) {k : Kernel Binary64}
    (hk : k ∈ p.kernels) : k.Fits := by
  obtain ⟨t, ht⟩ := hvalid.kernel k hk
  have hle : (Write.kernel k).length ≤ (Write.payload p).length := by
    have hsub := (List.sublist_flatten_of_mem (List.mem_map_of_mem (f := Write.kernel) hk)).length_le
    rw [← List.flatMap_def] at hsub
    simp only [Write.payload, List.length_append]
    omega
  have hlt := h.payload
  obtain ⟨htargets, hnodes⟩ := Write.le_length_kernel ht.tree
  exact ⟨h.equations k hk, by omega, t, ht.tree, (Tree.valid_of_validate ht.validate).fits (by omega)⟩

/-- The tensors of a catalog in the order in which they are written. -/
def mentioned (c : Catalog) : List Tensor := (c.constants ++ c.scalars).map ScalarRef.tensor

/-- With its tensors numbered, the program fits the format. -/
lemma Portable.fits_retag (h : p.Portable c) (hvalid : p.Valid c) :
    (p.retag (Tensor.numbered (mentioned c))).Fits (c.retag (Tensor.numbered (mentioned c))) := by
  have hdistinct : ∀ t ∈ mentioned c, ∀ t' ∈ mentioned c, t.name = t'.name → t = t' := by
    intro t ht t' ht'
    obtain ⟨r, hr, rfl⟩ := List.mem_map.1 ht
    obtain ⟨r', hr', rfl⟩ := List.mem_map.1 ht'
    exact h.distinct r hr r' hr'
  have hfits (constant : Bool) (refs : List ScalarRef)
      (hsub : ∀ r ∈ refs, r ∈ c.constants ++ c.scalars) :
      ∀ r ∈ refs.map (ScalarRef.retag (Tensor.numbered (mentioned c)) constant),
        r.Fits ∧ r.constant = constant := by
    intro r' hr'
    obtain ⟨r, hr, rfl⟩ := List.mem_map.1 hr'
    have hr := h.references r (hsub r hr)
    exact ⟨⟨hr.name, hr.component, hr.order, hr.derivs⟩, rfl⟩
  have hconstants : ∀ r ∈ c.constants, r ∈ c.constants ++ c.scalars := fun r =>
    List.mem_append_left _
  have hscalars : ∀ r ∈ c.scalars, r ∈ c.constants ++ c.scalars := fun r => List.mem_append_right _
  have hlt := h.payload
  -- Every entry takes up bytes of the payload, so the tables are no longer than it is.
  have hconstants_le : c.constants.length * 5 ≤ (c.constants.flatMap Write.reference).length :=
    Bytes.mul_le_length_flatMap fun r _ => Write.length_reference_ge r
  have hscalars_le : c.scalars.length * 5 ≤ (c.scalars.flatMap Write.reference).length :=
    Bytes.mul_le_length_flatMap fun r _ => Write.length_reference_ge r
  have houtputs_le : p.outputs.length * 4 ≤ (p.outputs.flatMap Write.output).length :=
    Bytes.mul_le_length_flatMap fun o _ => Write.length_output_ge o
  have hkernels_le : p.kernels.length * 8 ≤ (p.kernels.flatMap Write.kernel).length :=
    Bytes.mul_le_length_flatMap fun k _ => Write.length_kernel_ge k
  simp only [Write.payload, h.catalog, Option.getD_some, Write.references, List.length_append] at hlt
  exact {
    catalog := by rw [retag, h.catalog]; rfl
    name := h.name
    dim := h.dim
    constants := ⟨by rw [Catalog.retag, List.length_map]; omega, hfits true _ hconstants⟩
    scalars := ⟨by rw [Catalog.retag, List.length_map]; omega, hfits false _ hscalars⟩
    numbered := ⟨_, _,
      numbered_retag [] (c.scalars.map ScalarRef.tensor)
        (by rw [mentioned, List.map_append, List.nil_append]) hdistinct
        (fun r hr => h.named r (hconstants r hr)) fun r hr => (h.references r (hconstants r hr)).order,
      numbered_retag _ [] (by rw [mentioned, List.map_append, List.append_nil, List.nil_append])
        hdistinct (fun r hr => h.named r (hscalars r hr))
        fun r hr => (h.references r (hscalars r hr)).order⟩
    outputs := ⟨show p.outputs.length < 2 ^ 32 by omega, h.outputs⟩
    kernels := ⟨show p.kernels.length < 2 ^ 32 by omega, fun k hk => h.kernel_fits hvalid hk⟩ }

/-- Its file is read back whatever the reserved bytes are. -/
lemma Portable.decode_frame (h : p.Portable c) (hvalid : p.validate = .ok ()) (reserved : Bytes)
    (hreserved : reserved.length = 2) :
    decode (frame reserved p.id (Write.payload p))
      = .ok (p.retag (Tensor.numbered (mentioned c))) := by
  obtain ⟨c', hvalid'⟩ := valid_of_validate hvalid
  obtain rfl : c = c' := Option.some.inj (h.catalog.symm.trans hvalid'.catalog)
  have hpayload := payload_retag (Tensor.numbered (mentioned c)) (p := p) (fun _ => rfl) fun _ => rfl
  rw [decode_ok_iff, validate_retag, hpayload]
  exact ⟨hvalid, h.id, h.payload, ⟨_, h.fits_retag hvalid'⟩, reserved, hreserved, rfl⟩

/-- A program whose references have their marks is read back with other tensors and no other change. -/
lemma Portable.decode_encode_of_marked (h : p.Portable c) (hvalid : p.validate = .ok ())
    (hmarked : c.Marked) :
    decode p.encode = .ok { p with catalog := some (c.rename (Tensor.numbered (mentioned c))) } := by
  have hall : ∀ c ∈ p.catalog, c.Marked := by
    intro c' hc'
    obtain rfl : c = c' := Option.some.inj (h.catalog.symm.trans hc')
    exact hmarked
  have hread := h.decode_frame hvalid [0, 0] rfl
  rw [retag_eq_rename hall, h.catalog, Option.map_some] at hread
  exact hread

end Portable

/-- A program that passes its checks and fits the format is read back, up to the identities of its
tensors. -/
theorem decode_encode {p : Program Binary64} {c : Catalog} (hvalid : p.validate = .ok ())
    (h : p.Portable c) :
    ∃ φ : Tensor → Tensor, (∀ t, (φ t).name = t.name ∧ (φ t).order = t.order) ∧
      (∀ r ∈ c.constants ++ c.scalars, ∀ r' ∈ c.constants ++ c.scalars,
        φ r.tensor = φ r'.tensor → r.tensor = r'.tensor) ∧
      decode (encode p) = .ok (p.retag φ) := by
  refine ⟨Tensor.numbered (mentioned c), fun t => ⟨rfl, rfl⟩, fun r hr r' hr' heq => ?_,
    h.decode_frame hvalid [0, 0] rfl⟩
  have hname := congrArg Tensor.name heq
  exact h.distinct r hr r' hr' hname

/-- A constant `k` and the derivative `∂₀u₀` of a field. -/
def scaledCatalog : Catalog where
  constants := [⟨⟨Bytes.ofString "k", 0, 7⟩, ⟨[]⟩, ⟨[]⟩, true⟩]
  scalars := [⟨⟨Bytes.ofString "u", 1, 3⟩, ⟨[0]⟩, ⟨[0]⟩, false⟩]

/-- The program of the equation `y = k ∂₀u₀` in one dimension. -/
def scaled : Program Binary64 where
  id := List.replicate 16 5
  name := Bytes.ofString "scaled"
  dim := 1
  catalog := some scaledCatalog
  outputs := [⟨Bytes.ofString "y", 0, 0, []⟩]
  kernels := [⟨0, [0], some {
    dim := 1
    tags := #[15, 14, 3]
    left := #[-1, -1, 0]
    outer := ⟨#[0, 0, 0, 0], #[]⟩
    inner := ⟨#[0, 0, 0, 0], #[]⟩
    binding := ⟨#[0, 0, 0, 0], #[]⟩
    ids := ⟨#[0, 1, 2, 2], #[0, 0]⟩
    values := #[⟨0⟩, ⟨0⟩, ⟨0x7FF8000000000001⟩]
    funcs := #[0, 0, 0]
    offsets := #[0, 1, 2]
    depth := 3 }⟩]

/-- The program passes its checks. -/
lemma validate_scaled : scaled.validate = .ok () := by decide +kernel

/-- The program fits the format, as its tensors have different names. -/
lemma scaled_portable : scaled.Portable scaledCatalog where
  catalog := rfl
  id := rfl
  name := by decide
  dim := by decide
  named := by decide
  distinct := by decide
  references := by
    have hk : (⟨⟨Bytes.ofString "k", 0, 7⟩, ⟨[]⟩, ⟨[]⟩, true⟩ : ScalarRef).Fits :=
      ⟨by decide, rfl, by decide, by decide⟩
    have hu : (⟨⟨Bytes.ofString "u", 1, 3⟩, ⟨[0]⟩, ⟨[0]⟩, false⟩ : ScalarRef).Fits :=
      ⟨by decide, rfl, by decide, by decide⟩
    exact List.forall_mem_cons.2 ⟨hk, List.forall_mem_singleton.2 hu⟩
  outputs := List.forall_mem_singleton.2 ⟨by decide, by decide, by decide, by decide⟩
  equations := by decide
  payload := by decide +kernel

/-- The program is read back, and its two tensors stay apart. -/
theorem decode_encode_scaled :
    ∃ φ : Tensor → Tensor, (∀ t, (φ t).name = t.name ∧ (φ t).order = t.order) ∧
      φ ⟨Bytes.ofString "k", 0, 7⟩ ≠ φ ⟨Bytes.ofString "u", 1, 3⟩ ∧
      decode (encode scaled) = .ok (scaled.retag φ) := by
  obtain ⟨φ, hφ, -, hdecode⟩ := decode_encode validate_scaled scaled_portable
  refine ⟨φ, hφ, fun heq => ?_, hdecode⟩
  have hname := congrArg Tensor.name heq
  rw [(hφ _).1, (hφ _).1] at hname
  revert hname
  decide

/-! ### Files that are read -/

/-- Clearing the reserved bytes of a frame gives the frame without them. -/
lemma set_frame {reserved id payload : Bytes} (h : reserved.length = 2) :
    ((frame reserved id payload).set 6 0).set 7 0 = frame [0, 0] id payload := by
  obtain ⟨x, y, rfl⟩ := List.length_eq_two.1 h
  simp [frame]

/-- Only the reserved bytes tell two files of one payload apart. -/
lemma getElem?_frame {reserved reserved' id payload : Bytes} (h : reserved.length = 2)
    (h' : reserved'.length = 2) {i : Nat} (h6 : i ≠ 6) (h7 : i ≠ 7) :
    (frame reserved id payload)[i]? = (frame reserved' id payload)[i]? := by
  have hset : ∀ b : Bytes, ((b.set 6 0).set 7 0)[i]? = b[i]? := by
    intro b
    rw [List.getElem?_set_ne h7.symm, List.getElem?_set_ne h6.symm]
  rw [← hset, set_frame h, ← set_frame h', hset]

/-- A file that is read is what is written for its program, but for the two reserved bytes; so two
files of one program differ in no other bytes. -/
theorem encode_decode {b : Bytes} {p : Program Binary64} (h : decode b = .ok p) :
    encode p = (b.set 6 0).set 7 0 ∧
      ∀ (b' : Bytes) (p' : Program Binary64), decode b' = .ok p' →
        (∃ φ : Tensor → Tensor, (∀ t, (φ t).name = t.name ∧ (φ t).order = t.order) ∧
          p'.retag φ = p.retag φ) →
        b'.length = b.length ∧ ∀ i, i ≠ 6 → i ≠ 7 → b'[i]? = b[i]? := by
  obtain ⟨-, -, -, -, reserved, hreserved, rfl⟩ := decode_ok_iff.1 h
  refine ⟨by rw [set_frame hreserved, encode_eq_frame], ?_⟩
  rintro b' p' hb' ⟨φ, hφ, hsame⟩
  obtain ⟨-, -, -, -, reserved', hreserved', rfl⟩ := decode_ok_iff.1 hb'
  have hpayload : Write.payload p' = Write.payload p := by
    rw [← payload_retag φ (fun t => (hφ t).1) (fun t => (hφ t).2), hsame,
      payload_retag φ (fun t => (hφ t).1) fun t => (hφ t).2]
  have hid := congrArg Program.id hsame
  rw [hpayload, show p'.id = p.id from hid]
  refine ⟨?_, fun i h6 h7 => getElem?_frame hreserved' hreserved h6 h7⟩
  simp only [frame, List.length_append, hreserved, hreserved']

/-- A file with reserved bytes is read, and written again without them. -/
theorem encode_decode_scaled :
    ∃ b p, decode b = .ok p ∧ b[6]? = some 255 ∧ encode p = (b.set 6 0).set 7 0 := by
  have hread := scaled_portable.decode_frame validate_scaled [255, 1] rfl
  exact ⟨_, _, hread, rfl, (encode_decode hread).1⟩

end Program

end Indicial
