import Indicial.Command.Basic
import Indicial.Proofs.Bytes
import Indicial.Proofs.Model

/-!
# Cache keys tell compilations apart

A key is the digest of a text that holds the options and the source, and both can be read off that
text. The source of a request is the file that was read, with a comment behind it if the request
replaces the dimension. That comment ends in the new dimension, so it tells requests apart that
replace the dimension, and those that do not have their files alone. Keys then separate compilations
(`equal_sources_equal_models`), whatever format the files are decoded from, as long as the comment is
one in it.

A file can end in that very comment by itself. Read without a new dimension it gives the source of a
request with one, but the model keeps its own dimension (`unmarked_source_collides`).
-/

namespace Indicial

/-! ### The text of a key -/

/-- The options and the source are read off the text of a key. -/
lemma Cache.keyText_inj {options options' : Compile.Options} {source source' : Bytes}
    (h : keyText options source = keyText options' source') :
    options = options' ∧ source = source' := by
  obtain ⟨scalarize, validate⟩ := options
  obtain ⟨scalarize', validate'⟩ := options'
  have htrue : Bytes.ofString "true" = [116, 114, 117, 101] := by decide
  have hfalse : Bytes.ofString "false" = [102, 97, 108, 115, 101] := by decide
  unfold keyText at h
  simp only [List.append_assoc, List.append_cancel_left_eq] at h
  -- The two words for truth values begin with different letters.
  cases scalarize <;> cases scalarize' <;> cases validate <;> cases validate' <;>
    simp_all

/-- Keys of texts whose digests do not collide tell options and sources apart. -/
lemma Cache.key_inj {options options' : Compile.Options} {source source' : Bytes}
    (hdigest : Digest.sha256 (keyText options source) = Digest.sha256 (keyText options' source') →
      keyText options source = keyText options' source')
    (h : key options source = key options' source') : options = options' ∧ source = source' :=
  keyText_inj (hdigest (Bytes.toHex_injective h))

/-- A source text describes what its document does. -/
lemma Model.parse_eq_ok_iff {text : Bytes} {src : Source} :
    Source.parse text = .ok src ↔ Yaml.parse text >>= sourceOf = some src := by
  unfold Source.parse
  cases Yaml.parse text >>= sourceOf <;> simp

namespace Command

/-! ### Sources of requests -/

/-- A mark ends in a run of digits and a line break. -/
lemma overrideMark_eq {dim : Int64} (hdim : 0 < dim.toInt) :
    overrideMark dim
      = Bytes.ofString "\n# dimension override" ++ 32 :: Bytes.ofNat dim.toInt.natAbs ++ [10] := by
  have hwords : Bytes.ofString "\n# dimension override "
      = Bytes.ofString "\n# dimension override" ++ [32] := by decide
  have hbreak : Bytes.ofString "\n" = [10] := by decide
  rw [overrideMark, hwords, hbreak, Bytes.ofInt, if_neg (by omega)]
  simp only [List.append_assoc, List.cons_append, List.nil_append]

/-- A mark tells the file before it and the dimension in it apart. -/
lemma append_overrideMark_inj {source source' : Bytes} {dim dim' : Int64} (hdim : 0 < dim)
    (hdim' : 0 < dim') (h : source ++ overrideMark dim = source' ++ overrideMark dim') :
    source = source' ∧ dim = dim' := by
  rw [Int64.lt_iff_toInt_lt, Int64.toInt_zero] at hdim hdim'
  rw [overrideMark_eq hdim, overrideMark_eq hdim', ← List.append_assoc, ← List.append_assoc,
    ← List.append_assoc, ← List.append_assoc] at h
  obtain ⟨hfiles, hdigits⟩ := Bytes.append_digits_inj (by decide)
    (fun d => Bytes.isDigit_of_mem_ofNat) (fun d => Bytes.isDigit_of_mem_ofNat)
    (List.append_cancel_right h)
  have habs := Bytes.ofNat_injective hdigits
  exact ⟨List.append_cancel_right hfiles, Int64.toInt_inj.1 (by omega)⟩

variable {decode : Bytes → Except Error Model.Source}
  {path path' source source' bytes bytes' : Bytes} {dim dim' : Int64} {m m' : Model}

/-- What a request reads: its own dimension replaces that of the file if it is positive, and then a
mark is put behind the file. -/
lemma loadModelWith_eq_ok_iff : loadModelWith decode path source dim = .ok (bytes, m) ↔
    ∃ src, decode source = .ok src ∧
      ((0 < dim ∧ bytes = source ++ overrideMark dim ∧ { src with dimension := dim }.build = .ok m) ∨
        (¬0 < dim ∧ bytes = source ∧ src.build = .ok m)) := by
  rw [loadModelWith, within_eq_ok_iff, bind_eq_ok_iff]
  refine exists_congr fun src => and_congr_right fun _ => ?_
  split
  · rename_i hpos
    rw [bind_eq_ok_iff]
    constructor
    · rintro ⟨m', hbuild, hresult⟩
      cases hresult
      exact .inl ⟨hpos, rfl, hbuild⟩
    · rintro (⟨-, rfl, hbuild⟩ | ⟨hnot, -, -⟩)
      · exact ⟨m, hbuild, rfl⟩
      · exact absurd hpos hnot
  · rename_i hnot
    rw [bind_eq_ok_iff]
    constructor
    · rintro ⟨m', hbuild, hresult⟩
      cases hresult
      exact .inr ⟨hnot, rfl, hbuild⟩
    · rintro (⟨hpos, -, -⟩ | ⟨-, rfl, hbuild⟩)
      · exact absurd hpos hnot
      · exact ⟨m, hbuild, rfl⟩

/-- Requests that both replace the dimension, or both do not, read the same from equal sources. -/
lemma eq_of_bytes_eq (h : loadModelWith decode path source dim = .ok (bytes, m))
    (h' : loadModelWith decode path' source' dim' = .ok (bytes', m')) (hsame : 0 < dim ↔ 0 < dim')
    (hbytes : bytes = bytes') : m = m' := by
  obtain ⟨src, hparse, hread⟩ := loadModelWith_eq_ok_iff.1 h
  obtain ⟨src', hparse', hread'⟩ := loadModelWith_eq_ok_iff.1 h'
  subst hbytes
  rcases hread with ⟨hdim, hmarked, hbuild⟩ | ⟨hdim, rfl, hbuild⟩
  · rcases hread' with ⟨hdim', hmarked', hbuild'⟩ | ⟨hdim', -, -⟩
    · obtain ⟨rfl, rfl⟩ := append_overrideMark_inj hdim hdim' (hmarked.symm.trans hmarked')
      rw [hparse] at hparse'
      cases hparse'
      rw [hbuild] at hbuild'
      exact Except.ok.inj hbuild'
    · exact absurd (hsame.1 hdim) hdim'
  · rcases hread' with ⟨hdim', -, -⟩ | ⟨hdim', rfl, hbuild'⟩
    · exact absurd (hsame.2 hdim') hdim
    · rw [hparse] at hparse'
      cases hparse'
      rw [hbuild] at hbuild'
      exact Except.ok.inj hbuild'

/-- A request that replaces the dimension and one for a file that ends in the mark read the same only
if the file has that dimension anyway. -/
lemma eq_iff_dim_of_marked (h : loadModelWith decode path source dim = .ok (bytes, m))
    (h' : loadModelWith decode path' source' dim' = .ok (bytes', m')) (hdim : 0 < dim)
    (hdim' : ¬0 < dim') (hbytes : bytes = bytes')
    (hcomment : decode (source ++ overrideMark dim) = decode source) :
    m = m' ↔ m'.system.dim = dim := by
  obtain ⟨src, hparse, ⟨-, hmarked, hbuild⟩ | ⟨hnot, -, -⟩⟩ := loadModelWith_eq_ok_iff.1 h
  swap
  · exact absurd hdim hnot
  obtain ⟨src', hparse', ⟨hpos, -, -⟩ | ⟨-, rfl, hbuild'⟩⟩ := loadModelWith_eq_ok_iff.1 h'
  · exact absurd hpos hdim'
  -- The mark is a comment, so both files describe one source, but for the dimension asked for.
  rw [← hbytes, hmarked, hcomment, hparse] at hparse'
  cases hparse'
  constructor
  · rintro rfl
    exact Model.dim_of_build hbuild
  · intro hsame
    have hsrc : { src with dimension := dim } = src := by
      rw [← hsame, Model.dim_of_build hbuild']
    rw [hsrc, hbuild'] at hbuild
    exact (Except.ok.inj hbuild).symm

/-- Keys separate compilations. Equal sources give equal models if both requests replace the dimension
or neither does. If one does and the other one's file ends in its mark, a comment, the models are equal
exactly if that file has the dimension asked for. Where digests do not collide, equal keys mean equal
options and sources, so of two requests of one sort each compiles what the other one does. Nothing is
asked of the decoder but that a mark is a comment in its format. -/
theorem equal_sources_equal_models (h : loadModelWith decode path source dim = .ok (bytes, m))
    (h' : loadModelWith decode path' source' dim' = .ok (bytes', m')) :
    ((0 < dim ↔ 0 < dim') → bytes = bytes' → m = m') ∧
      (0 < dim → ¬0 < dim' → bytes = bytes' →
        decode (source ++ overrideMark dim) = decode source →
        (m = m' ↔ m'.system.dim = dim)) ∧
      ∀ options options' : Compile.Options,
        (Digest.sha256 (Cache.keyText options bytes) = Digest.sha256 (Cache.keyText options' bytes') →
          Cache.keyText options bytes = Cache.keyText options' bytes') →
        Cache.key options bytes = Cache.key options' bytes' →
        options = options' ∧ bytes = bytes' ∧ ((0 < dim ↔ 0 < dim') →
          m.system.compile Literal.toBinary64 options programId
            = m'.system.compile Literal.toBinary64 options' programId) := by
  refine ⟨eq_of_bytes_eq h h', eq_iff_dim_of_marked h h', ?_⟩
  intro options options' hdigest hkey
  obtain ⟨rfl, hbytes⟩ := Cache.key_inj hdigest hkey
  refine ⟨rfl, hbytes, fun hsame => ?_⟩
  rw [eq_of_bytes_eq h h' hsame hbytes]

/-- A vector in two dimensions. -/
def plane : Bytes :=
  Bytes.ofString "\x7bname: m, dimension: 2, tensors: [\x7bname: u, order: 1\x7d], "
    ++ Bytes.ofString "equations: [\x7blhs: u, index: i, rhs: u(i)\x7d]\x7d"

/-- What the document describes, in any dimension. -/
def planeSource (dim : Int64) : Model.Source where
  name := Bytes.ofString "m"
  dimension := dim
  tensors := [⟨Bytes.ofString "u", 1⟩]
  equations := [⟨Bytes.ofString "u", Bytes.ofString "i", Bytes.ofString "u(i)"⟩]
  constants := []

/-- The document is read as the source it was written for. -/
lemma parse_plane : Model.Source.parse plane = .ok (planeSource 2) :=
  Model.parse_eq_ok_iff.2 (by decide +kernel)

/-- The vector as the document declares it. -/
def planeVector : Tensor := ⟨Bytes.ofString "u", 1, 0⟩

section

open Expr.Parser

/-- The right side of the document is the vector along its label. -/
lemma parse_planeVector :
    parse [(Bytes.ofString "u", planeVector)] (Bytes.ofString "u(i)")
      = .ok (.tensor planeVector [105]) := by
  have hname : resolve [(Bytes.ofString "u", planeVector)] [117]
      = some (.symbol (.tensor planeVector)) := by
    have hreserved : reserved.lookup [117] = none := List.lookup_eq_none_iff.2 (by decide +kernel)
    rw [resolve_of_tensor (by decide +kernel) hreserved]
    rfl
  have hlabels : LabelList [.name [105]] [105] :=
    ⟨.inr (.last (List.forall_mem_singleton.2 (by decide))), by decide⟩
  have hphrase : Phrase (Env.mk [(Bytes.ofString "u", planeVector)] 4).scope .expr
      [.name [117], .mark .opening, .name [105], .mark .closing]
      (.symbol (.tensor planeVector) [105]) :=
    .expr (.term (.positive (.plain (.symbol hname hlabels))) .done) .done
  have hsource : Bytes.ofString "u(i)" = [117, 40, 105, 41] := by decide
  have hspelled : Spelled [117, 40, 105, 41]
      ([.name [117], .mark .opening, .name [105], .mark .closing] ++ []) :=
    .token (lexeme_name_iff.2 ⟨⟨117, _, rfl, by decide⟩, by decide, rfl⟩) <|
      .token (.mark (m := .opening)) <|
        .token (lexeme_name_iff.2 ⟨⟨105, _, rfl, by decide⟩, by decide, rfl⟩) <|
          .token (.mark (m := .closing)) .done
  have hbuild : (ParseTree.symbol (.tensor planeVector) [105]).build = .ok (.tensor planeVector [105]) :=
    rfl
  rw [hsource]
  exact Expr.Parser.parse_eq_ok_iff.2 (hphrase.reads hbuild hspelled nofun)

end

/-- The equation of the document is added to a system without equations. -/
lemma assign_planeVector (dim : Int64) :
    Model.assign [(Bytes.ofString "u", planeVector)] (.start (Bytes.ofString "m") dim) 0
        ⟨Bytes.ofString "u", Bytes.ofString "i", Bytes.ofString "u(i)"⟩
      = .ok ⟨Bytes.ofString "m", dim,
          [⟨planeVector, Bytes.ofString "i", .tensor planeVector [105]⟩], [planeVector]⟩ := by
  have hfind : ([(Bytes.ofString "u", planeVector)].find? fun entry => entry.1 == Bytes.ofString "u")
      = some (Bytes.ofString "u", planeVector) := rfl
  simp only [Model.assign, hfind, parse_planeVector]
  rfl

/-- Both dimensions make models of the document. -/
lemma exists_build_planeSource (dim : Int64) (hdim : dim = 2 ∨ dim = 3) :
    ∃ m, (planeSource dim).build = .ok m := by
  have hscope : (planeSource dim).tensors.foldlM Model.declare []
      = .ok [(Bytes.ofString "u", planeVector)] := rfl
  rw [Model.Source.build, hscope, ok_bind, planeSource, Model.assignAll, assign_planeVector]
  rcases hdim with rfl | rfl <;> exact ⟨_, rfl⟩

/-- A mark behind the document is a comment and changes nothing. -/
lemma parse_plane_marked {dim : Int64} (hdim : dim = 2 ∨ dim = 3) :
    Model.Source.parse (plane ++ overrideMark dim) = .ok (planeSource 2) := by
  rw [Model.parse_eq_ok_iff]
  rcases hdim with rfl | rfl <;> decide +kernel

/-- Two requests of one source: one asks for the dimension, the other one's file ends in the mark. -/
lemma exists_loadModel_plane {dim : Int64} (hdim : dim = 2 ∨ dim = 3) :
    ∃ m m', loadModel [] plane dim = .ok (plane ++ overrideMark dim, m) ∧
      loadModel [] (plane ++ overrideMark dim) 0 = .ok (plane ++ overrideMark dim, m') ∧
      m.system.dim = dim ∧ m'.system.dim = 2 := by
  obtain ⟨m, hm⟩ := exists_build_planeSource dim hdim
  obtain ⟨m', hm'⟩ := exists_build_planeSource 2 (.inl rfl)
  have hpos : 0 < dim := by rcases hdim with rfl | rfl <;> decide
  exact ⟨m, m', loadModelWith_eq_ok_iff.2 ⟨_, parse_plane, .inl ⟨hpos, rfl, hm⟩⟩,
    loadModelWith_eq_ok_iff.2 ⟨_, parse_plane_marked hdim, .inr ⟨by decide, rfl, hm'⟩⟩,
    Model.dim_of_build hm, Model.dim_of_build hm'⟩

/-- A file of two dimensions with the mark of two describes the model of a request for two. -/
theorem equal_sources_equal_models_plane :
    ∃ m m', loadModel [] plane 2 = .ok (plane ++ overrideMark 2, m) ∧
      loadModel [] (plane ++ overrideMark 2) 0 = .ok (plane ++ overrideMark 2, m') ∧ m = m' := by
  obtain ⟨m, m', h, h', -, hdim'⟩ := exists_loadModel_plane (.inl rfl)
  obtain ⟨-, hmarked, -⟩ := equal_sources_equal_models h h'
  refine ⟨m, m', h, h', (hmarked (by decide) (by decide) rfl ?_).2 hdim'⟩
  rw [parse_plane_marked (.inl rfl), parse_plane]

/-- Asking for three dimensions, and reading a file in two that ends in the mark of three, give one
source and one key but two systems. -/
theorem unmarked_source_collides :
    ∃ bytes m m', loadModel [] plane 3 = .ok (bytes, m) ∧
      loadModel [] (plane ++ overrideMark 3) 0 = .ok (bytes, m') ∧
      Model.Source.parse (plane ++ overrideMark 3) = Model.Source.parse plane ∧
      m.system.dim = 3 ∧ m'.system.dim = 2 := by
  obtain ⟨m, m', h, h', hdim, hdim'⟩ := exists_loadModel_plane (.inr rfl)
  exact ⟨_, m, m', h, h', by rw [parse_plane_marked (.inr rfl), parse_plane], hdim, hdim'⟩

end Command

end Indicial
