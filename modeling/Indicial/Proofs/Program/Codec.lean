import Indicial.Proofs.Program.Reader
import Indicial.Proofs.Program

/-!
# Program files and programs

A file is a header, which counts and sums up the bytes after it, and a payload. The parts of the payload
are put together from the readers and writers of the parts (`Read.payload_ok_iff`), the header is taken
apart into its fields (`Read.header_ok_iff`), and so `decode_ok_iff` says which files are read: those
that are written for a program which passes its checks and fits the format, whatever the two reserved
bytes of the header hold.
-/

namespace Indicial.Program

/-! ### Payloads -/

/-- A program that the format can hold, with its catalog as reading makes it: every reference is
marked by the table it stands in, and the tensors are numbered in the order of their first mention. -/
structure Fits {α : Type} (p : Program α) (c : Catalog) : Prop where
  catalog : p.catalog = some c
  name : p.name.length < 2 ^ 16
  dim : 0 ≤ p.dim.toInt ∧ p.dim.toInt < 2 ^ 16
  constants : c.constants.length < 2 ^ 32 ∧ ∀ r ∈ c.constants, r.Fits ∧ r.constant = true
  scalars : c.scalars.length < 2 ^ 32 ∧ ∀ r ∈ c.scalars, r.Fits ∧ r.constant = false
  numbered : ∃ known known', Numbered [] c.constants known ∧ Numbered known c.scalars known'
  outputs : p.outputs.length < 2 ^ 32 ∧ ∀ o ∈ p.outputs, o.Fits
  kernels : p.kernels.length < 2 ^ 32 ∧ ∀ k ∈ p.kernels, k.Fits

section Payload

variable {input rest id : Bytes} {p : Program Binary64}

/-- An output takes at least four bytes. -/
lemma Write.length_output_ge (o : Output) : 4 ≤ (Write.output o).length := by
  simp only [Write.output, Write.text, List.length_append, Write.length_u16, Write.length_u8,
    Write.length_u32]
  omega

/-- A kernel takes at least eight bytes. -/
lemma Write.length_kernel_ge (k : Kernel Binary64) : 8 ≤ (Write.kernel k).length := by
  simp only [Write.kernel, List.length_append, Write.length_u32]
  omega

/-- What is read as a payload is written for a program that fits. -/
lemma Read.payload_ok_iff :
    Read.payload id input = .ok (p, rest) ↔
      p.id = id ∧ (∃ c, p.Fits c) ∧ input = Write.payload p ++ rest := by
  rw [Read.payload, Read.bind_ok_iff, Write.payload]
  constructor
  · rintro ⟨name, i₁, hname, h⟩
    obtain ⟨dim, i₂, hdim, h⟩ := Read.bind_ok_iff.1 h
    obtain ⟨⟨constants, known⟩, i₃, hconstants, h⟩ := Read.bind_ok_iff.1 h
    obtain ⟨⟨scalars, known'⟩, i₄, hscalars, h⟩ := Read.bind_ok_iff.1 h
    obtain ⟨m, i₅, hm, h⟩ := Read.bind_ok_iff.1 h
    obtain ⟨outputs, i₆, houtputs, h⟩ := Read.bind_ok_iff.1 h
    obtain ⟨n, i₇, hn, h⟩ := Read.bind_ok_iff.1 h
    obtain ⟨kernels, i₈, hkernels, h⟩ := Read.bind_ok_iff.1 h
    obtain ⟨rfl, rfl⟩ := Read.pure_ok_iff.1 h
    obtain ⟨hname_lt, rfl⟩ := Read.text_ok_iff.1 hname
    obtain ⟨hdim_lt, rfl⟩ := Read.u16_ok_iff.1 hdim
    obtain ⟨hconstants_fit, hknown, rfl⟩ := Read.references_ok_iff.1 hconstants
    obtain ⟨hscalars_fit, hknown', rfl⟩ := Read.references_ok_iff.1 hscalars
    obtain ⟨houtputs_lt, houtputs_fit, rfl⟩ := (Read.table_ok_iff Read.output_ok_iff
      Write.length_output_ge).1 (Read.bind_ok_iff.2 ⟨m, _, hm, houtputs⟩)
    obtain ⟨hkernels_lt, hkernels_fit, rfl⟩ := (Read.table_ok_iff Read.kernel_ok_iff
      Write.length_kernel_ge).1 (Read.bind_ok_iff.2 ⟨n, _, hn, hkernels⟩)
    -- The dimension was read from two bytes, so its word is the number.
    have hdim' : (Int64.ofNat dim).toInt = dim := Int64.toInt_ofNat_of_lt (by omega)
    refine ⟨rfl, ⟨⟨constants, scalars⟩, rfl, hname_lt, ?_, hconstants_fit, hscalars_fit,
      ⟨known, known', hknown, hknown'⟩, ⟨houtputs_lt, houtputs_fit⟩, hkernels_lt, hkernels_fit⟩, ?_⟩
    · rw [hdim']
      omega
    · simp only [hdim', Option.getD_some, List.append_assoc]
  · obtain ⟨pid, name, dim, catalog, outputs, kernels⟩ := p
    rintro ⟨rfl, ⟨c, rfl, hname, hdim, hconstants, hscalars, ⟨known, known', hknown, hknown'⟩,
      ⟨houtputs_lt, houtputs⟩, hkernels_lt, hkernels⟩, rfl⟩
    obtain ⟨dim, hdim_lt, rfl⟩ := exists_eq_ofNat hdim.1
    dsimp only at hname hdim houtputs_lt hkernels_lt ⊢
    rw [Int64.toInt_ofNat_of_lt hdim_lt] at hdim ⊢
    simp only [Option.getD_some]
    rw [List.append_assoc, List.append_assoc, List.append_assoc, List.append_assoc,
      List.append_assoc, List.append_assoc, List.append_assoc]
    refine ⟨name, _, Read.text_ok_iff.2 ⟨hname, rfl⟩, ?_⟩
    refine Read.bind_ok_iff.2 ⟨dim, _, Read.u16_ok_iff.2 ⟨by omega, rfl⟩, ?_⟩
    refine Read.bind_ok_iff.2 ⟨_, _, Read.references_ok_iff.2 ⟨hconstants, hknown, rfl⟩, ?_⟩
    refine Read.bind_ok_iff.2 ⟨_, _, Read.references_ok_iff.2 ⟨hscalars, hknown', rfl⟩, ?_⟩
    obtain ⟨m, i₅, hm, hrun⟩ := Read.bind_ok_iff.1 ((Read.table_ok_iff Read.output_ok_iff
      Write.length_output_ge).2 ⟨houtputs_lt, houtputs, (List.append_assoc _ _ _).symm⟩)
    refine Read.bind_ok_iff.2 ⟨m, i₅, hm, Read.bind_ok_iff.2 ⟨outputs, _, hrun, ?_⟩⟩
    obtain ⟨n, i₇, hn, hrun'⟩ := Read.bind_ok_iff.1 ((Read.table_ok_iff Read.kernel_ok_iff
      Write.length_kernel_ge).2 ⟨hkernels_lt, hkernels, (List.append_assoc _ _ _).symm⟩)
    exact Read.bind_ok_iff.2 ⟨n, i₇, hn, Read.bind_ok_iff.2 ⟨kernels, _, hrun', rfl⟩⟩

end Payload

/-! ### Headers -/

/-- The file of a payload, with the reserved bytes given. -/
def frame (reserved id payload : Bytes) : Bytes :=
  Write.u32 magic.toNat ++ Write.u16 version.toNat ++ reserved ++ id
    ++ Write.u32 payload.length ++ Write.u32 (Checksum.crc32 payload).toNat ++ payload

/-- A file is the frame of its payload. -/
lemma encode_eq_frame (p : Program Binary64) : encode p = frame [0, 0] p.id (Write.payload p) := rfl

/-- Behind the header of a frame is the payload. -/
lemma drop_frame {reserved id : Bytes} (hreserved : reserved.length = 2) (hid : id.length = 16)
    (payload : Bytes) : (frame reserved id payload).drop headerSize = payload :=
  List.drop_left' (by simp [hreserved, hid, headerSize])

section Header

variable {data mark version reserved id size sum payload : Bytes}

/-- The part of a file between two others. -/
lemma take_drop_middle {before part after : Bytes} {start width : Nat} (hstart : before.length = start)
    (hwidth : part.length = width) : ((before ++ part ++ after).drop start).take width = part := by
  rw [List.append_assoc, List.drop_left' hstart, List.take_left' hwidth]

/-- A file that is long enough is a sequence of the fields of a header and a payload. -/
lemma exists_fields (h : headerSize ≤ data.length) :
    ∃ mark version reserved id size sum payload : Bytes, mark.length = 4 ∧ version.length = 2 ∧
      reserved.length = 2 ∧ id.length = 16 ∧ size.length = 4 ∧ sum.length = 4 ∧
      data = mark ++ version ++ reserved ++ id ++ size ++ sum ++ payload := by
  have hsplit (start width : Nat) :
      data.drop start = (data.drop start).take width ++ data.drop (start + width) := by
    rw [← List.drop_drop, List.take_append_drop]
  rw [headerSize] at h
  refine ⟨data.take 4, (data.drop 4).take 2, (data.drop 6).take 2, (data.drop 8).take 16,
    (data.drop 24).take 4, (data.drop 28).take 4, data.drop 32, ?_, ?_, ?_, ?_, ?_, ?_, ?_⟩
  iterate 6
    · simp only [List.length_take, List.length_drop]
      omega
  · simp only [List.append_assoc]
    rw [← hsplit 28 4, ← hsplit 24 4, ← hsplit 8 16, ← hsplit 6 2, ← hsplit 4 2,
      List.take_append_drop]

/-- What is checked of the fields of a header. -/
lemma Read.header_fields (hmark : mark.length = 4) (hversion : version.length = 2)
    (hreserved : reserved.length = 2) (hid : id.length = 16) (hsize : size.length = 4)
    (hsum : sum.length = 4) {x : Bytes} :
    Read.header (mark ++ version ++ reserved ++ id ++ size ++ sum ++ payload) = .ok x ↔
      mark.ofLittleEndian = magic.toNat ∧ version.ofLittleEndian = Program.version.toNat ∧
        size.ofLittleEndian = payload.length ∧
        sum.ofLittleEndian = (Checksum.crc32 payload).toNat ∧ x = id := by
  -- Each field is a piece of the file at a fixed place, as all lengths are known.
  generalize hdata : mark ++ version ++ reserved ++ id ++ size ++ sum ++ payload = data
  have hlength : ¬data.length < headerSize := by
    subst hdata
    simp only [List.length_append, hmark, hversion, hreserved, hid, hsize, hsum, headerSize]
    omega
  have hmark' : (data.drop 0).take 4 = mark := by
    subst hdata
    simp only [List.append_assoc]
    exact List.take_left' hmark
  have hversion' : (data.drop 4).take 2 = version := by
    subst hdata
    simp only [List.append_assoc mark _ _, List.append_assoc version _ _]
    rw [← List.append_assoc]
    exact take_drop_middle hmark hversion
  have hid' : (data.drop 8).take 16 = id := by
    subst hdata
    rw [List.append_assoc _ size, List.append_assoc _ (size ++ sum)]
    exact take_drop_middle (by simp [hmark, hversion, hreserved]) hid
  have hsize' : (data.drop 24).take 4 = size := by
    subst hdata
    rw [List.append_assoc _ sum]
    exact take_drop_middle (by simp [hmark, hversion, hreserved, hid]) hsize
  have hsum' : (data.drop 28).take 4 = sum := by
    subst hdata
    exact take_drop_middle (by simp [hmark, hversion, hreserved, hid, hsize]) hsum
  have hpayload : data.drop headerSize = payload := by
    subst hdata
    exact List.drop_left' (by simp [hmark, hversion, hreserved, hid, hsize, hsum, headerSize])
  rw [Read.header]
  simp only [hmark', hversion', hid', hsize', hsum', hpayload]
  rw [guard_eq_ok_iff, guard_eq_ok_iff, guard_eq_ok_iff, guard_eq_ok_iff, guard_eq_ok_iff]
  simp only [hlength, not_false_iff, true_and, not_not, pure_eq_ok, Except.ok.injEq, eq_comm (b := x)]

/-- What is read as a header belongs to a frame. -/
lemma Read.header_ok_iff :
    Read.header data = .ok id ↔ ∃ reserved payload, reserved.length = 2 ∧ id.length = 16 ∧
      payload.length < 2 ^ 32 ∧ data = frame reserved id payload := by
  have hmagic : magic.toNat < 2 ^ 32 := magic.toNat_lt
  have hversion : Program.version.toNat < 2 ^ 16 := Program.version.toNat_lt
  constructor
  · intro h
    have hlength : headerSize ≤ data.length := by
      rw [Read.header] at h
      exact Nat.not_lt.1 (guard_eq_ok h).1
    obtain ⟨mark, version, reserved, id', size, sum, payload, h₁, h₂, h₃, h₄, h₅, h₆, rfl⟩ :=
      exists_fields hlength
    obtain ⟨hmark, hver, hsize, hsum, rfl⟩ := (Read.header_fields h₁ h₂ h₃ h₄ h₅ h₆).1 h
    have hpayload : payload.length < 2 ^ 32 := by
      have hlt := size.ofLittleEndian_lt
      rw [hsize, h₅] at hlt
      omega
    refine ⟨reserved, payload, h₃, h₄, hpayload, ?_⟩
    have hcrc := (Checksum.crc32 payload).toNat_lt
    rw [Bytes.ofLittleEndian_eq_iff h₁ (by omega)] at hmark
    rw [Bytes.ofLittleEndian_eq_iff h₂ (by omega)] at hver
    rw [Bytes.ofLittleEndian_eq_iff h₅ (by omega)] at hsize
    rw [Bytes.ofLittleEndian_eq_iff h₆ (by omega)] at hsum
    rw [frame, Write.u32_natCast hmagic, Write.u16_natCast hversion, Write.u32_natCast hpayload,
      Write.u32_natCast hcrc, hmark, hver, hsize, hsum]
  · rintro ⟨reserved, payload, hreserved, hid, hpayload, rfl⟩
    have hcrc := (Checksum.crc32 payload).toNat_lt
    refine (Read.header_fields (Write.length_u32 _) (Write.length_u16 _) hreserved hid
      (Write.length_u32 _) (Write.length_u32 _)).2 ⟨?_, ?_, ?_, ?_, rfl⟩
    · rw [Write.u32_natCast hmagic, Bytes.ofLittleEndian_littleEndian (by omega)]
    · rw [Write.u16_natCast hversion, Bytes.ofLittleEndian_littleEndian (by omega)]
    · rw [Write.u32_natCast hpayload, Bytes.ofLittleEndian_littleEndian (by omega)]
    · rw [Write.u32_natCast hcrc, Bytes.ofLittleEndian_littleEndian (by omega)]

end Header

/-! ### Files -/

/-- What is read as a file is a frame of a program that fits. -/
lemma Read.file_ok_iff {data : Bytes} {p : Program Binary64} :
    Read.file data = .ok p ↔ ∃ reserved : Bytes, reserved.length = 2 ∧ p.id.length = 16 ∧
      (Write.payload p).length < 2 ^ 32 ∧ (∃ c, p.Fits c) ∧
      data = frame reserved p.id (Write.payload p) := by
  rw [Read.file, bind_eq_ok_iff]
  constructor
  · rintro ⟨id, hheader, h⟩
    obtain ⟨⟨p', rest⟩, hpayload, hend⟩ := bind_eq_ok_iff.1 h
    obtain ⟨reserved, payload, hreserved, hid, hlt, rfl⟩ := Read.header_ok_iff.1 hheader
    obtain ⟨rfl, hfits, hdata⟩ := Read.payload_ok_iff.1 hpayload
    rw [drop_frame hreserved hid] at hdata
    dsimp only at hend
    split at hend
    case isTrue hrest =>
      cases hend
      obtain rfl : rest = [] := by simpa using hrest
      rw [List.append_nil] at hdata
      subst hdata
      exact ⟨reserved, hreserved, hid, hlt, hfits, rfl⟩
    case isFalse => cases hend
  · rintro ⟨reserved, hreserved, hid, hlt, hfits, rfl⟩
    refine ⟨p.id, Read.header_ok_iff.2 ⟨reserved, _, hreserved, hid, hlt, rfl⟩, ?_⟩
    rw [drop_frame hreserved hid, bind_eq_ok_iff]
    exact ⟨(p, []), Read.payload_ok_iff.2 ⟨rfl, hfits, (List.append_nil _).symm⟩, rfl⟩

/-- Reading accepts exactly the files of valid programs that the format can hold, whatever their
reserved bytes are. -/
theorem decode_ok_iff {data : Bytes} {p : Program Binary64} :
    decode data = .ok p ↔ p.validate = .ok () ∧ p.id.length = 16 ∧
      (Write.payload p).length < 2 ^ 32 ∧ (∃ c, p.Fits c) ∧
      ∃ reserved : Bytes, reserved.length = 2 ∧ data = frame reserved p.id (Write.payload p) := by
  rw [decode]
  constructor
  · intro h
    cases hfile : Read.file data with
    | error e =>
      rw [hfile] at h
      cases h
    | ok p' =>
      rw [hfile] at h
      obtain ⟨⟨⟩, hvalid, h⟩ := bind_eq_ok_iff.1 h
      cases h
      obtain ⟨reserved, hreserved, hid, hlt, hfits, rfl⟩ := Read.file_ok_iff.1 hfile
      exact ⟨hvalid, hid, hlt, hfits, reserved, hreserved, rfl⟩
  · rintro ⟨hvalid, hid, hlt, hfits, reserved, hreserved, rfl⟩
    rw [Read.file_ok_iff.2 ⟨reserved, hreserved, hid, hlt, hfits, rfl⟩]
    exact bind_eq_ok_iff.2 ⟨(), hvalid, rfl⟩

end Indicial.Program
