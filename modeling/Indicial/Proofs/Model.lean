import Indicial.Model.Basic
import Indicial.Proofs.Expr.Reads
import Indicial.Proofs.Expr.Recognition

/-!
# Built models

The tensors of a built model have the valid names that they are declared by, and no two of them have
one name (`Declared`). The right sides are read from texts over these declarations: they are made by
the checked builders, and every leaf of them is a declared tensor (`build_over`).
-/

namespace Indicial

namespace Expr

/-- An expression that the builders make and that reads tensors of `T` and scalars of `R`. -/
structure BuiltOver (T : Tensor → Prop) (R : ScalarRef → Prop) (e : Expr) : Prop where
  built : Built e
  reads : e.Reads T R

variable {T : Tensor → Prop} {R : ScalarRef → Prop} {e l r m : Expr} {labels : Index}

namespace BuiltOver

/-- Numbers are built over anything. -/
lemma number (x : Literal) : BuiltOver T R (number x) :=
  ⟨.broadcast (Nat.zero_le _) (rfl : mkBroadcast x [] = .ok (Expr.number x)), trivial⟩

/-- Operators are built over what their operands are built over. -/
lemma operator (op : Parser.Operator) (hl : BuiltOver T R l) (hr : BuiltOver T R r)
    (h : op.build l r = .ok m) : BuiltOver T R m := by
  cases op with
  | plus =>
    refine ⟨.sum hl.built hr.built h, ?_⟩
    obtain ⟨rfl, -⟩ := mkSum_eq_ok_iff.1 h
    exact ⟨hl.reads, hr.reads⟩
  | minus =>
    refine ⟨.difference hl.built hr.built h, ?_⟩
    obtain ⟨rfl, -⟩ := mkDifference_eq_ok_iff.1 h
    exact ⟨hl.reads, hr.reads⟩
  | times =>
    refine ⟨.product hl.built hr.built h, ?_⟩
    obtain ⟨rfl, -⟩ := mkProduct_eq_ok_iff.1 h
    exact ⟨hl.reads, hr.reads⟩
  | slash =>
    refine ⟨.ratio hl.built hr.built h, ?_⟩
    obtain ⟨rfl, -⟩ := mkRatio_eq_ok_iff.1 h
    exact ⟨hl.reads, hr.reads⟩

/-- Powers are built over what their operands are built over. -/
lemma power (hl : BuiltOver T R l) (hr : BuiltOver T R r) (h : mkPower l r = .ok m) :
    BuiltOver T R m := by
  refine ⟨.power hl.built hr.built h, ?_⟩
  obtain ⟨rfl, -⟩ := mkPower_eq_ok_iff.1 h
  exact ⟨hl.reads, hr.reads⟩

/-- Negations are built over what their operands are built over. -/
lemma negated (he : BuiltOver T R e) (h : Parser.negated e = .ok m) : BuiltOver T R m := by
  cases e with
  | literal x labels =>
    refine ⟨.broadcast he.built.wellFormed.2 h, ?_⟩
    obtain ⟨rfl, -⟩ := mkBroadcast_eq_ok_iff.1 h
    exact trivial
  | _ =>
    refine ⟨.negate he.built h, ?_⟩
    cases h
    exact he.reads

/-- Bindings are built over what their operands are built over. -/
lemma bind (he : BuiltOver T R e) (h : mkBind e labels = .ok m) : BuiltOver T R m := by
  obtain ⟨rfl, hlength⟩ := mkBind_eq_ok_iff.1 h
  have hle := he.built.wellFormed.length_outer_le
  exact ⟨.bind (hlength.trans_le hle) he.built h, he.reads⟩

/-- The average of relabellings reads what the expression reads. -/
lemma symmetrize (he : BuiltOver T R e) (h : symmetrize e = .ok m) : BuiltOver T R m :=
  symmetrize_induction number he.bind (operator .plus) (operator .times) he h

/-- Operations are built over what their operands are built over. -/
lemma operation {k : Parser.Operation} (he : BuiltOver T R e) (h : k.build e = .ok m) :
    BuiltOver T R m := by
  cases k with
  | apply f =>
    refine ⟨.apply he.built h, ?_⟩
    obtain ⟨rfl, -⟩ := mkApply_eq_ok_iff.1 h
    exact he.reads
  | symmetrize => exact he.symmetrize h

/-- Marks and bindings are built over what their operands are built over. -/
lemma labelling {k : Parser.Labelling} (he : BuiltOver T R e) (hle : labels.length ≤ Index.capacity)
    (h : k.build e labels = .ok m) : BuiltOver T R m := by
  cases k with
  | derivative =>
    refine ⟨.derivative hle he.built h, ?_⟩
    obtain ⟨-, ⟨inner, first, rfl, rfl, -⟩ | ⟨-, rfl, -⟩⟩ := mkDerivative_of_ok h
    · exact he.reads
    · exact he.reads
  | bind => exact he.bind h

/-- A tensor is built over the tensors it is one of. -/
lemma leaf {a : Tensor} (ha : T a) (hle : labels.length ≤ Index.capacity)
    (h : mkLeaf a labels = .ok m) : BuiltOver T R m := by
  refine ⟨.leaf hle h, ?_⟩
  obtain ⟨rfl, -⟩ := mkLeaf_eq_ok_iff.1 h
  exact ha

/-- Symbols are built over the tensors they stand for. -/
lemma symbol {k : Parser.Symbol} (hk : ∀ a, k = .tensor a → T a)
    (hle : labels.length ≤ Index.capacity) (h : k.build labels = .ok m) : BuiltOver T R m := by
  cases k with
  | delta =>
    refine ⟨.delta hle h, ?_⟩
    obtain ⟨-, h⟩ | ⟨-, h⟩ := ite_eq_iff.1 h
    · cases h
      exact trivial
    · cases h
  | epsilon =>
    refine ⟨.epsilon hle h, ?_⟩
    obtain ⟨-, h⟩ | ⟨-, h⟩ := ite_eq_iff.1 h
    · cases h
      exact trivial
    · cases h
  | tensor a => exact leaf (hk a rfl) hle h

end BuiltOver

/-! ### Expressions read from text -/

namespace Parser

variable {scope : Scope} {part : Part} {ts : List Token} {t : ParseTree} {src w : Bytes} {a : Tensor}

/-- A name that stands for a tensor is in scope. -/
lemma mem_of_resolve (h : resolve scope w = some (.symbol (.tensor a))) : a ∈ scope.map (·.2) := by
  cases hf : Func.ofName? w with
  | some f =>
    rw [resolve_of_function hf] at h
    cases h
  | none =>
    cases hr : reserved.lookup w with
    | some meaning =>
      rw [resolve_of_reserved hf hr] at h
      cases h
      obtain ⟨front, back, hentry, -⟩ := List.lookup_eq_some_iff.1 hr
      have hmem : (w, Meaning.symbol (.tensor a)) ∈ reserved := by simp [hentry]
      simp [reserved] at hmem
    | none =>
      rw [resolve_of_tensor hf hr, Option.map_eq_some_iff] at h
      obtain ⟨b, hb, hab⟩ := h
      cases hab
      obtain ⟨front, back, rfl, -⟩ := List.lookup_eq_some_iff.1 hb
      simp

/-- What a phrase stands for reads tensors in scope, if what it goes on after does. -/
lemma Phrase.builtOver (h : Phrase scope part ts t)
    (hleft : ∀ tier left e, part = .more tier left → left.build = .ok e →
      BuiltOver (· ∈ scope.map (·.2)) R e)
    (hbuild : t.build = .ok e) : BuiltOver (· ∈ scope.map (·.2)) R e := by
  -- A phrase that goes on after an operand reads the operand too, which is what `hleft` is for.
  induction h generalizing e with
  | expr h hmore ih ihmore =>
    refine ihmore (fun tier left f hpart hf => ?_) hbuild
    cases hpart
    exact ih nofun hf
  | term h hmore ih ihmore =>
    refine ihmore (fun tier left f hpart hf => ?_) hbuild
    cases hpart
    exact ih nofun hf
  | done => exact hleft _ _ _ rfl hbuild
  | @more tier _ _ _ _ _ op hop h hmore ih ihmore =>
    refine ihmore (fun tier' left f hpart hf => ?_) hbuild
    cases hpart
    obtain ⟨l, hl, hf⟩ := bind_eq_ok_iff.1 hf
    obtain ⟨r, hr, hf⟩ := bind_eq_ok_iff.1 hf
    have hoperand := ih (fun _ _ _ hpart => absurd hpart (tier.operand_ne_more _ _)) hr
    exact .operator op (hleft _ _ _ rfl hl) hoperand hf
  | negative h ih =>
    obtain ⟨f, hf, hbuild⟩ := bind_eq_ok_iff.1 hbuild
    exact (ih nofun hf).negated hbuild
  | positive h ih => exact ih nofun hbuild
  | raised h hexp ih ihexp =>
    obtain ⟨l, hl, hbuild⟩ := bind_eq_ok_iff.1 hbuild
    obtain ⟨r, hr, hbuild⟩ := bind_eq_ok_iff.1 hbuild
    exact (ih nofun hl).power (ihexp nofun hr) hbuild
  | plain h ih => exact ih nofun hbuild
  | number =>
    cases hbuild
    exact .number _
  | group h ih => exact ih nofun hbuild
  | operation hw h ih =>
    obtain ⟨f, hf, hbuild⟩ := bind_eq_ok_iff.1 hbuild
    exact (ih nofun hf).operation hbuild
  | labelling hw h hlabels ih =>
    obtain ⟨f, hf, hbuild⟩ := bind_eq_ok_iff.1 hbuild
    exact (ih nofun hf).labelling hlabels.2 hbuild
  | bind hw h ih =>
    obtain ⟨f, hf, hbuild⟩ := bind_eq_ok_iff.1 hbuild
    exact (ih nofun hf).labelling (Nat.zero_le _) hbuild
  | symbol hw hlabels =>
    refine .symbol (fun a ha => ?_) hlabels.2 hbuild
    subst ha
    exact mem_of_resolve hw
  | reference hw horder =>
    rw [ParseTree.build, mkReference, if_pos horder] at hbuild
    exact .leaf (mem_of_resolve hw) (Nat.zero_le _) hbuild

/-- An expression that is read from text reads tensors in scope. -/
theorem parse_builtOver (h : parse scope src = .ok e) :
    BuiltOver (· ∈ scope.map (·.2)) R e := by
  obtain ⟨rest, hread, -⟩ := parse_eq_ok_iff.1 h
  obtain ⟨ts, t, hphrase, hbuild, -⟩ := hread.explained
  have hexpr : Phrase scope .expr ts t := hphrase
  exact hexpr.builtOver nofun hbuild

end Parser

end Expr

/-! ### Models -/

namespace Model

open Indicial.Expr

variable {scope scope' : Parser.Scope} {d : Declaration} {s s' : EquationSystem} {i : Nat}
  {eq : EquationSource} {eqs : List EquationSource} {src : Source} {m : Model}

/-- Names have letters and digits only. -/
lemma isName_bytes {name : Bytes} (h : isName name = true) :
    ∀ b ∈ name, (Bytes.isLetter b || Bytes.isDigit b) = true := by
  cases name with
  | nil => cases h
  | cons b rest =>
    rw [isName, Bool.and_eq_true, List.all_eq_true] at h
    rw [List.forall_mem_cons, h.1]
    exact ⟨rfl, h.2⟩

/-- The tensors of a scope have the valid names that they are found by, each name once. -/
structure Declared (scope : Parser.Scope) : Prop where
  named : ∀ entry ∈ scope, entry.2.name = entry.1 ∧ isName entry.1 = true
  apart : (scope.map (·.1)).Nodup

/-- A tensor that is declared has a new name, which it is found by. -/
lemma declare_eq_ok (h : declare scope d = .ok scope') : d.name ∉ scope.map (·.1) ∧
    isName d.name = true ∧ ∃ t : Tensor, t.name = d.name ∧ scope' = scope ++ [(d.name, t)] := by
  rw [declare] at h
  split at h
  · cases h
  · rename_i hnew
    split at h
    · cases h
    · rename_i hvalid
      split at h
      · cases h
      · obtain ⟨t, ht, h⟩ := bind_eq_ok_iff.1 h
        cases h
        refine ⟨?_, ?_, t, ?_, rfl⟩
        · simpa using hnew
        · simp only [Bool.or_eq_true, Bool.not_eq_true', not_or, Bool.not_eq_false] at hvalid
          exact hvalid.1.1
        · rw [liftM_eq_ok_iff, Tensor.make] at ht
          split at ht
          · cases ht
          · split at ht
            · cases ht
            · cases ht
              rfl

/-- Declaring keeps names and tensors apart. -/
lemma Declared.declare (h : Declared scope) (hdeclare : declare scope d = .ok scope') :
    Declared scope' := by
  obtain ⟨hnew, hname, t, ht, rfl⟩ := declare_eq_ok hdeclare
  constructor
  · intro entry hentry
    rcases List.mem_append.1 hentry with hentry | hentry
    · exact h.named entry hentry
    · cases List.mem_singleton.1 hentry
      exact ⟨ht, hname⟩
  · rw [List.map_append, List.map_singleton]
    exact h.apart.append (List.nodup_singleton _) (by simpa using hnew)

/-- After all declarations, names and tensors are apart. -/
lemma declared_of_foldlM {ds : List Declaration} (h : ds.foldlM declare [] = .ok scope) :
    Declared scope := by
  have hempty : Declared [] := ⟨by simp, List.nodup_nil⟩
  exact foldlM_preserves (fun _ _ _ _ hscope => hscope.declare) hempty h

/-- Declared tensors have names. -/
lemma Declared.isName_of_mem (h : Declared scope) {t : Tensor} (ht : t ∈ scope.map (·.2)) :
    isName t.name = true := by
  obtain ⟨entry, hentry, rfl⟩ := List.mem_map.1 ht
  obtain ⟨hname, hvalid⟩ := h.named entry hentry
  rwa [hname]

/-- Declared tensors are told apart by their names. -/
lemma Declared.eq_of_name_eq (h : Declared scope) {t t' : Tensor} (ht : t ∈ scope.map (·.2))
    (ht' : t' ∈ scope.map (·.2)) (hname : t.name = t'.name) : t = t' := by
  obtain ⟨entry, hentry, rfl⟩ := List.mem_map.1 ht
  obtain ⟨entry', hentry', rfl⟩ := List.mem_map.1 ht'
  rw [(h.named entry hentry).1, (h.named entry' hentry').1] at hname
  rw [List.inj_on_of_nodup_map h.apart hentry hentry' hname]

/-- An equation is added as it is read. -/
lemma assign_eq_ok (h : assign scope s i eq = .ok s') :
    ∃ lhs rhs, Parser.parse scope eq.rhs = .ok rhs ∧ s'.dim = s.dim ∧
      s'.equations = s.equations ++ [⟨lhs, eq.index, rhs⟩] := by
  rw [assign] at h
  split at h
  · cases h
  · rename_i lhs hlhs
    obtain ⟨rhs, hrhs, h⟩ := bind_eq_ok_iff.1 h
    obtain ⟨-, h⟩ := guard_eq_ok h
    rw [within_eq_ok_iff] at hrhs h
    obtain ⟨equation, hequation, h⟩ := bind_eq_ok_iff.1 h
    obtain ⟨-, h⟩ := guard_eq_ok h
    cases h
    obtain ⟨⟨⟩, -, hequation⟩ := bind_eq_ok_iff.1 hequation
    cases hequation
    exact ⟨lhs, rhs, hrhs, rfl, rfl⟩

/-- What every added equation keeps, adding all of them keeps. -/
lemma assignAll_preserves {P : EquationSystem → Prop}
    (hstep : ∀ s s' i eq, P s → assign scope s i eq = .ok s' → P s') (hs : P s)
    (h : assignAll scope s i eqs = .ok s') : P s' := by
  induction eqs generalizing s i with
  | nil =>
    cases h
    exact hs
  | cons eq eqs ih =>
    obtain ⟨next, hnext, h⟩ := bind_eq_ok_iff.1 h
    exact ih (hstep s next i eq hs hnext) h

/-- A model is built from declarations and equations. -/
lemma build_eq_ok (h : src.build = .ok m) : ∃ scope, src.tensors.foldlM declare [] = .ok scope ∧
    assignAll scope (.start src.name src.dimension) 0 src.equations = .ok m.system := by
  obtain ⟨scope, hscope, h⟩ := bind_eq_ok_iff.1 h
  obtain ⟨s, hs, h⟩ := bind_eq_ok_iff.1 h
  obtain ⟨⟨⟩, -, h⟩ := bind_eq_ok_iff.1 h
  cases h
  exact ⟨scope, hscope, hs⟩

/-- A model has the dimension of its source. -/
lemma dim_of_build (h : src.build = .ok m) : m.system.dim = src.dimension := by
  obtain ⟨scope, -, hs⟩ := build_eq_ok h
  refine assignAll_preserves (P := fun s => s.dim = src.dimension) ?_ rfl hs
  intro s s' i eq hdim hassign
  obtain ⟨-, -, -, hsame, -⟩ := assign_eq_ok hassign
  exact hsame.trans hdim

/-- The right sides of a built model read declared tensors and no scalars. -/
theorem build_over (h : src.build = .ok m) :
    ∃ scope, Declared scope ∧ ∀ (R : ScalarRef → Prop),
      ∀ eq ∈ m.system.equations, BuiltOver (· ∈ scope.map (·.2)) R eq.rhs := by
  obtain ⟨scope, hscope, hs⟩ := build_eq_ok h
  refine ⟨scope, declared_of_foldlM hscope, fun R => ?_⟩
  refine assignAll_preserves (P := fun s : EquationSystem =>
    ∀ eq ∈ s.equations, BuiltOver (· ∈ scope.map (·.2)) R eq.rhs) ?_ (by simp [EquationSystem.start]) hs
  intro s s' i source hs hassign eq heq
  obtain ⟨lhs, rhs, hrhs, -, hequations⟩ := assign_eq_ok hassign
  rw [hequations, List.mem_append, List.mem_singleton] at heq
  rcases heq with heq | rfl
  · exact hs eq heq
  · exact Parser.parse_builtOver hrhs

end Model

end Indicial
