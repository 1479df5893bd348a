import Indicial.Proofs.Program.Checksum
import Indicial.Proofs.Program.RoundTrip

/-!
# Damaged program files

What reading makes of a file that was changed a little. A header that is accepted says how long the
payload is and what its checksum is, so no part of a file and no continuation of one is accepted, and
neither is a file in which a byte of these two fields, of the mark, of the version or of the payload
was replaced: the checksum notices the last (`Read.header_set`). The other bytes of the header are the
id, which a reader takes as it is, and the reserved ones, which it does not look at
(`decode_detects`).
-/

namespace Indicial.Program

/-- Reading refuses the bytes as damaged. -/
def Refused (data : Bytes) : Prop := ∃ why, decode data = .error (.corrupt why)

/-- Data without a good header is refused. -/
lemma refused_of_header {data : Bytes} (h : ∀ id, Read.header data ≠ .ok id) : Refused data := by
  cases hfile : Read.file data with
  | error why => exact ⟨why, by rw [decode, hfile]⟩
  | ok p =>
    obtain ⟨id, hid, -⟩ := bind_eq_ok_iff.1 hfile
    exact absurd hid (h id)

/-! ### Fields of a file -/

section Fields

variable {data : Bytes} {start width i : Nat} {b x : UInt8}

/-- The bytes of a field. -/
def field (start width : Nat) (data : Bytes) : Bytes := (data.drop start).take width

/-- A byte that is replaced changes its field. -/
lemma field_set_ne (hb : data[i]? = some b) (hx : x ≠ b) (hstart : start ≤ i)
    (hend : i < start + width) : field start width (data.set i x) ≠ field start width data := by
  intro h
  have hi := (List.getElem?_eq_some_iff.1 hb).1
  have hget := congrArg (fun f : Bytes => f[i - start]?) h
  simp only [field, List.getElem?_take, List.getElem?_drop, Nat.add_sub_cancel' hstart,
    if_pos (show i - start < width by omega), hb, List.getElem?_set_self hi] at hget
  exact hx (Option.some.inj hget)

/-- A byte behind a field does not change it. -/
lemma field_set_of_le (hi : start + width ≤ i) :
    field start width (data.set i x) = field start width data := by
  rw [field, field, List.drop_set]
  split
  · rfl
  · exact List.take_set_of_le (by omega)

/-- A byte of the part of a file between two others. -/
lemma set_middle {before part after : Bytes} {j : Nat} (hstart : before.length = start)
    (hj : j < part.length) (x : UInt8) :
    (before ++ part ++ after).set (start + j) x = before ++ part.set j x ++ after := by
  rw [List.append_assoc, List.set_append_right _ _ (by omega), hstart, Nat.add_sub_cancel_left,
    List.set_append_left _ _ hj, List.append_assoc]

/-- A field that lies in the beginning of a file is a field of the beginning. -/
lemma field_append {more : Bytes} (h : start + width ≤ data.length) :
    field start width (data ++ more) = field start width data := by
  rw [field, field, List.drop_append_of_le_length (by omega),
    List.take_append_of_le_length (by rw [List.length_drop]; omega)]

end Fields

section Frame

variable {reserved id payload : Bytes}

/-- A frame is as long as header and payload. -/
lemma length_frame (hreserved : reserved.length = 2) (hid : id.length = 16) :
    (frame reserved id payload).length = headerSize + payload.length := by
  simp only [frame, List.length_append, Write.length_u32, Write.length_u16, hreserved, hid, headerSize]

/-- A frame begins with magic number and version. -/
lemma field_frame_beginning (reserved id payload : Bytes) :
    field 0 6 (frame reserved id payload) = Write.u32 magic.toNat ++ Write.u16 version.toNat := by
  simp only [field, frame, List.append_assoc, List.drop_zero]
  rw [← List.append_assoc]
  exact List.take_left' (by simp)

/-- A frame has the length of its payload in its header. -/
lemma field_frame_size (hreserved : reserved.length = 2) (hid : id.length = 16) :
    field 24 4 (frame reserved id payload) = Write.u32 payload.length := by
  rw [frame, List.append_assoc _ (Write.u32 (Checksum.crc32 payload).toNat)]
  exact take_drop_middle (by simp [hreserved, hid]) (Write.length_u32 _)

/-- A frame has the checksum of its payload in its header. -/
lemma field_frame_sum (hreserved : reserved.length = 2) (hid : id.length = 16) :
    field 28 4 (frame reserved id payload) = Write.u32 (Checksum.crc32 payload).toNat :=
  take_drop_middle (by simp [hreserved, hid]) (Write.length_u32 _)

/-- Changing a reserved byte changes the reserved bytes. -/
lemma frame_set_reserved {j : Nat} (hreserved : reserved.length = 2) (hj : j < 2) (x : UInt8) :
    (frame reserved id payload).set (6 + j) x = frame (reserved.set j x) id payload := by
  simp only [frame, List.append_assoc _ id, List.append_assoc _ (id ++ _),
    List.append_assoc _ (id ++ _ ++ _)]
  exact set_middle (by simp) (by omega) x

/-- Changing a byte of the identity changes the identity. -/
lemma frame_set_id {j : Nat} (hreserved : reserved.length = 2) (hid : id.length = 16) (hj : j < 16)
    (x : UInt8) : (frame reserved id payload).set (8 + j) x = frame reserved (id.set j x) payload := by
  simp only [frame, List.append_assoc _ (Write.u32 payload.length),
    List.append_assoc _ (Write.u32 payload.length ++ _)]
  exact set_middle (by simp [hreserved]) (by omega) x

/-- Numbers below `2 ^ 32` are known from their bytes. -/
lemma Write.u32_inj {m n : Nat} (hm : m < 2 ^ 32) (hn : n < 2 ^ 32)
    (h : Write.u32 m = Write.u32 n) : m = n := by
  rw [Write.u32_natCast hm, Write.u32_natCast hn] at h
  have hback := congrArg Bytes.ofLittleEndian h
  rwa [Bytes.ofLittleEndian_littleEndian (by omega), Bytes.ofLittleEndian_littleEndian (by omega)]
    at hback

end Frame

/-! ### Headers of changed files -/

namespace Read

variable {data data' id id' : Bytes} {i : Nat} {b x : UInt8}

/-- Two files whose headers are accepted and give the same length are equally long. -/
lemma header_length (h : header data = .ok id) (h' : header data' = .ok id')
    (hsize : field 24 4 data = field 24 4 data') : data.length = data'.length := by
  obtain ⟨reserved, payload, hreserved, hid, hlt, rfl⟩ := header_ok_iff.1 h
  obtain ⟨reserved', payload', hreserved', hid', hlt', rfl⟩ := header_ok_iff.1 h'
  rw [field_frame_size hreserved hid, field_frame_size hreserved' hid'] at hsize
  rw [length_frame hreserved hid, length_frame hreserved' hid', Write.u32_inj hlt hlt' hsize]

/-- Data with a good header has at least that length. -/
lemma headerSize_le_of_header (h : header data = .ok id) : headerSize ≤ data.length := by
  obtain ⟨reserved, payload, hreserved, hid, -, rfl⟩ := header_ok_iff.1 h
  rw [length_frame hreserved hid]
  omega

/-- No beginning of a file is a file. -/
lemma header_take (h : header data = .ok id) {n : Nat} (hn : n < data.length) :
    header (data.take n) ≠ .ok id' := by
  intro h'
  have hlen := headerSize_le_of_header h'
  rw [List.length_take, headerSize] at hlen
  have hfield : field 24 4 data = field 24 4 (data.take n) := by
    conv_lhs => rw [← List.take_append_drop n data]
    exact field_append (by rw [List.length_take]; omega)
  have hsame := header_length h h' hfield
  rw [List.length_take] at hsame
  omega

/-- No file continues another. -/
lemma header_append (h : header data = .ok id) {more : Bytes} (hmore : more ≠ []) :
    header (data ++ more) ≠ .ok id' := by
  intro h'
  have hlen := headerSize_le_of_header h
  rw [headerSize] at hlen
  have hsame := header_length h h' (field_append (by omega)).symm
  rw [List.length_append] at hsame
  exact hmore (List.length_eq_zero_iff.1 (by omega))

/-- Outside the reserved bytes and the id no byte of a file can be replaced. -/
theorem header_set (h : header data = .ok id) (hb : data[i]? = some b) (hx : x ≠ b)
    (hi : i < 6 ∨ 24 ≤ i) : header (data.set i x) ≠ .ok id' := by
  intro h'
  obtain ⟨reserved, payload, hreserved, hid, hlt, hdata⟩ := header_ok_iff.1 h
  obtain ⟨reserved', payload', hreserved', hid', hlt', hdata'⟩ := header_ok_iff.1 h'
  have hpayload : data.drop headerSize = payload := by rw [hdata, drop_frame hreserved hid]
  have hpayload' : (data.set i x).drop headerSize = payload' := by
    rw [hdata', drop_frame hreserved' hid']
  -- A byte of the header is known from the payload, and a byte of the payload from the checksum.
  by_cases hbody : headerSize ≤ i
  · have hsum : field 28 4 (data.set i x) = field 28 4 data := field_set_of_le hbody
    rw [List.drop_set, if_neg (by omega), hpayload] at hpayload'
    rw [hdata', hdata, field_frame_sum hreserved' hid', field_frame_sum hreserved hid,
      ← hpayload'] at hsum
    have hcrc := Write.u32_inj (UInt32.toNat_lt _) (UInt32.toNat_lt _) hsum
    refine Checksum.crc32_set_ne (i := i - headerSize) ?_ hx (UInt32.toNat_inj.1 hcrc)
    rw [← hpayload, List.getElem?_drop, Nat.add_sub_cancel' hbody, hb]
  · rw [headerSize] at hbody
    rw [List.drop_set, if_pos (by rw [headerSize]; omega), hpayload] at hpayload'
    subst hpayload'
    rcases hi with hi | hi
    · refine field_set_ne hb hx (Nat.zero_le i) (show i < 0 + 6 by omega) ?_
      rw [hdata', hdata, field_frame_beginning, field_frame_beginning]
    · by_cases hsum : i < 28
      · refine field_set_ne hb hx hi (show i < 24 + 4 by omega) ?_
        rw [hdata', hdata, field_frame_size hreserved' hid', field_frame_size hreserved hid]
      · refine field_set_ne hb hx (Nat.not_lt.1 hsum) (show i < 28 + 4 by omega) ?_
        rw [hdata', hdata, field_frame_sum hreserved' hid', field_frame_sum hreserved hid]

end Read

/-! ### Files -/

/-- The checks of a program do not look at its id. -/
lemma Valid.withId {α : Type} {p : Program α} {c : Catalog} (h : p.Valid c) (id : Bytes) :
    Valid { p with id := id } c where
  catalog := h.catalog
  outputs := h.outputs
  width := h.width
  kernel k hk := by
    obtain ⟨t, ht⟩ := h.kernel k hk
    exact ⟨t, ht.tree, ht.validate, ht.dim, ht.length_targets, ht.target_lt, ht.id_lt⟩
  targets := h.targets

/-- The id of a program stands in its file and nowhere else. -/
lemma decode_frame_id {p : Program Binary64} {reserved id : Bytes}
    (h : decode (frame reserved p.id (Write.payload p)) = .ok p) {reserved' : Bytes}
    (hreserved : reserved'.length = 2) (hid : id.length = 16) :
    decode (frame reserved' id (Write.payload p)) = .ok { p with id := id } := by
  obtain ⟨hvalidate, -, hlt, ⟨c, hfits⟩, -⟩ := decode_ok_iff.1 h
  obtain ⟨c', hvalid⟩ := valid_of_validate hvalidate
  refine decode_ok_iff.2 ⟨(hvalid.withId id).validate, hid, hlt, ⟨c, ?_⟩, reserved', hreserved, rfl⟩
  exact ⟨hfits.catalog, hfits.name, hfits.dim, hfits.constants, hfits.scalars, hfits.numbered,
    hfits.outputs, hfits.kernels⟩

/-- Reading detects every local damage of a file. A part or a continuation of a file is refused, and
so is a file in which one byte was replaced. Only the bytes of the id and the reserved ones are free:
a byte of the id changes the id of the program, a reserved byte nothing. -/
theorem decode_detects {file : Bytes} {p : Program Binary64} (h : decode file = .ok p) :
    (∀ n < file.length, Refused (file.take n)) ∧
    (∀ more, more ≠ [] → Refused (file ++ more)) ∧
    ∀ i old new, file[i]? = some old → new ≠ old →
      (i < 6 ∨ 24 ≤ i → Refused (file.set i new)) ∧
      (6 ≤ i → i < 8 → decode (file.set i new) = .ok p) ∧
      (8 ≤ i → i < 24 →
        decode (file.set i new) = .ok { p with id := p.id.set (i - 8) new }) := by
  obtain ⟨-, hid, hlt, -, reserved, hreserved, rfl⟩ := decode_ok_iff.1 h
  have hheader := Read.header_ok_iff.2 ⟨reserved, _, hreserved, hid, hlt, rfl⟩
  refine ⟨fun n hn => refused_of_header fun _ => Read.header_take hheader hn,
    fun more hmore => refused_of_header fun _ => Read.header_append hheader hmore, ?_⟩
  intro i old new hold hnew
  -- The frame absorbs a byte of the reserved part or of the id, and the payload stays as it is.
  refine ⟨fun hi => refused_of_header fun _ => Read.header_set hheader hold hnew hi,
    fun hge hlt => ?_, fun hge hlt => ?_⟩
  · obtain ⟨j, rfl⟩ := Nat.exists_eq_add_of_le hge
    rw [frame_set_reserved hreserved (by omega)]
    exact decode_frame_id h (by rw [List.length_set, hreserved]) hid
  · obtain ⟨j, rfl⟩ := Nat.exists_eq_add_of_le hge
    rw [frame_set_id hreserved hid (by omega), Nat.add_sub_cancel_left]
    exact decode_frame_id h hreserved (by rw [List.length_set, hid])

/-- The file of `scaled` cut inside its header, continued by a byte, and damaged in the mark, the
reserved bytes, the id, the length and the name. -/
theorem decode_detects_scaled :
    ∃ p, decode (encode scaled) = .ok p ∧ Refused ((encode scaled).take 31) ∧
      Refused (encode scaled ++ [0]) ∧ Refused ((encode scaled).set 0 0) ∧
      decode ((encode scaled).set 7 9) = .ok p ∧
      decode ((encode scaled).set 8 9) = .ok { p with id := p.id.set 0 9 } ∧
      Refused ((encode scaled).set 25 1) ∧ Refused ((encode scaled).set 34 65) := by
  have hread := scaled_portable.decode_frame validate_scaled [0, 0] rfl
  obtain ⟨htake, happend, hset⟩ := decode_detects hread
  have hlength : 31 < (encode scaled).length := by decide +kernel
  refine ⟨_, hread, htake 31 hlength, happend [0] (by simp), ?_, ?_, ?_, ?_, ?_⟩
  · exact (hset 0 84 0 (by decide +kernel) (by decide)).1 (by omega)
  · exact (hset 7 0 9 (by decide +kernel) (by decide)).2.1 (by omega) (by omega)
  · exact (hset 8 5 9 (by decide +kernel) (by decide)).2.2 (by omega) (by omega)
  · exact (hset 25 0 1 (by decide +kernel) (by decide)).1 (by omega)
  · exact (hset 34 115 65 (by decide +kernel) (by decide)).1 (by omega)

end Indicial.Program
