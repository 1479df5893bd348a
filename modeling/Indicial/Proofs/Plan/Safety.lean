import Indicial.Proofs.Plan.IndexMap
import Indicial.Proofs.Plan.Step
import Indicial.Proofs.Tree.Valid

/-!
# Running the plan of any checked tree

Trees come from files too, so the arguments about flattened expressions do not reach all of them. For
a tree that passes its checks and has a plan, every step of the plan stays inside storage, provided
that the tree is sound: its function codes are known, its offsets are not negative, the end of its
root window does not wrap around, and no contraction has more components than it runs over. None of
the four is checked, and each of them is needed.
-/

namespace Indicial

open Indicial.Frame

variable {α : Type} {A : Arith α}

namespace Tree

/-- The labels whose assignments a contraction or a relabelling runs over. -/
def runsOver (t : Tree α) (i : Nat) : Index :=
  if t.kind? i = some .bind then Index.unique (t.binding.row i)
  else Index.unique (t.outer.row (t.children i).1.toNat ++ t.outer.row (t.children i).2.toNat)

/-- The first slot of a node's window, as a true number. -/
def first (t : Tree α) (i : Nat) : Nat := (t.offset i).toInt.toNat

/-- What evaluation relies on and no check ensures. -/
structure Sound (t : Tree α) : Prop where
  func : ∀ i < t.nodes, t.kind? i = some .function → (Func.ofCode? (t.funcs.getD i 0)).isSome
  offset : ∀ i < t.nodes, 0 ≤ (t.offset i).toInt
  root : t.windowEnd t.root < 2 ^ 31
  rounds : ∀ i < t.nodes, t.kind? i ∈ [some .product, some .ratio, some .bind] →
    t.components i ≤ t.dim.toInt.toNat ^ (t.runsOver i).length

/-! ### Windows of sound trees -/

section Windows

variable {t : Tree α} {i c : Nat}

/-- The dimension of a checked tree is the word of a number. -/
lemma Valid.dim_eq (h : t.Valid) : t.dim = Int64.ofNat t.dim.toInt.toNat :=
  (ofNat_toNat_toInt (Int.le_trans (by decide) h.dim.1)).symm

/-- The dimension of a checked tree is positive. -/
lemma Valid.dim_pos (h : t.Valid) : 0 < t.dim.toInt.toNat := by
  have := h.dim.1
  omega

/-- The dimension of a checked tree is a word. -/
lemma Valid.dim_lt (h : t.Valid) : t.dim.toInt.toNat < 2 ^ 63 := by
  have := h.dim.2
  omega

/-- The window of a node ends behind its components. -/
lemma Valid.windowEnd_eq (h : t.Valid) (hs : t.Sound) (hi : i < t.nodes) :
    t.windowEnd i = ((t.first i + t.components i : Nat) : Int) := by
  rw [h.windowEnd_eq_add hi, first, Nat.cast_add, Int.toNat_of_nonneg (hs.offset i hi)]

/-- The storage that the windows of a tree take up. -/
def storage (t : Tree α) : Nat := t.first t.root + t.components t.root

/-- The storage of a sound tree has fewer than `2 ^ 31` slots. -/
lemma Valid.storage_lt (h : t.Valid) (hs : t.Sound) : t.storage < 2 ^ 31 := by
  have hroot := h.root_lt
  have hend := h.windowEnd_eq hs hroot
  have hlt := hs.root
  rw [storage]
  omega

/-- The end of a root window that does not wrap around is the depth of the tree. -/
lemma Valid.storage_eq (h : t.Valid) (hs : t.Sound) : (t.storage : Int) = t.depth.toInt := by
  have hroot := h.root_lt
  have hsize := (h.size_bounds hroot).1
  rw [h.depth, toInt_watermark (by omega) hs.root, h.windowEnd_eq hs hroot, storage]

/-- Every window lies within the storage. -/
lemma Valid.end_le (h : t.Valid) (hs : t.Sound) (hi : i < t.nodes) :
    t.first i + t.components i ≤ t.storage := by
  have hroot := h.root_lt
  have hle := h.windowEnd_le_root hi
  rw [h.windowEnd_eq hs hi, h.windowEnd_eq hs hroot] at hle
  exact_mod_cast hle

/-- An operand lies below the node. -/
lemma Valid.operand_le (h : t.Valid) (hs : t.Sound) (hc : c < t.nodes)
    (hend : t.windowEnd c ≤ (t.offset i).toInt) : t.first c + t.components c ≤ t.first i := by
  rw [h.windowEnd_eq hs hc] at hend
  rw [first.eq_1 t i]
  omega

/-- The offset of a node is the word of its first slot. -/
lemma Sound.offset_eq (hs : t.Sound) (hi : i < t.nodes) :
    (t.offset i).toInt64 = Int64.ofNat (t.first i) := by
  have hoffset := hs.offset i hi
  have hlt := (t.offset i).toInt_lt
  apply Int64.toInt_inj.1
  rw [Int32.toInt_toInt64, first, Int64.toInt_ofNat_of_lt (by omega), Int.toNat_of_nonneg hoffset]

/-- A node has fewer than `2 ^ 31` components. -/
lemma Valid.components_lt (h : t.Valid) (hs : t.Sound) (hi : i < t.nodes) :
    t.components i < 2 ^ 31 := by
  have hend := h.end_le hs hi
  have hlt := h.storage_lt hs
  omega

end Windows

end Tree

/-! ### One node -/

namespace Plan

/-- Run on any frame with room for the windows of a tree, the node succeeds. -/
def Node.Safe (A : Arith α) (t : Tree α) (constants : Nat) (n : Node α) : Prop :=
  ∀ (W S : Nat) (inputs : Inputs α) (f : Frame α) (v : Nat → Nat → α), t.storage ≤ S → S < 2 ^ 63 →
    inputs.constants.size = constants → f.Shows W S v →
    ∃ f' v', n.run A inputs f = .ok f' ∧ f'.Shows W S v'

variable {t : Tree α} {i constants : Nat} {kind : Kind} {step : Step α}

/-- The map of labels that have a window. -/
lemma follows_of_make (h : t.Valid) {inner target : Index} {m : IndexMap}
    (hm : IndexMap.make inner target t.dim = .ok m) (hrank : target.length ≤ Index.capacity)
    (hsmall : t.dim.toInt.toNat ^ target.length < 2 ^ 31) :
    m.Follows t.dim.toInt.toNat inner target := by
  rw [h.dim_eq] at hm
  exact IndexMap.follows_of_make hm h.dim_pos h.dim_lt (hrank.trans_lt (by decide)) hsmall

section Binary

variable {l r : Nat} (h : t.Valid) (hs : t.Sound) (hi : i < t.nodes)
  (hchildren : t.children i = ((l : Int), (r : Int))) (hl : l < t.nodes) (hr : r < t.nodes)
  (hlend : t.first l + t.components l ≤ t.first i) (hrend : t.first r + t.components r ≤ t.first i)

include h hs hi hchildren hl hr hlend hrend

/-- Running a sum or difference is safe. -/
lemma elementwise_safe (hkind : kind = .sum ∨ kind = .difference)
    (hstep : Plan.step A t i kind = .ok step) :
    Node.Safe A t constants ⟨kind, (t.offset i).toInt64, t.size i, step⟩ := by
  obtain ⟨hsame, m, hm, hrun⟩ : t.outer.row l = t.outer.row i ∧
      ∃ m, IndexMap.make (t.outer.row i) (t.outer.row r) t.dim = .ok m ∧
        ∃ op : α → α → α, ∀ inputs f,
          (⟨kind, (t.offset i).toInt64, t.size i, step⟩ : Node α).run A inputs f
            = runElementwise op (t.offset i).toInt64 (t.size i) (t.offset l).toInt64
              (t.offset r).toInt64 m f := by
    unfold Plan.step at hstep
    rw [hchildren] at hstep
    rcases hkind with rfl | rfl
    all_goals
      dsimp only at hstep
      obtain ⟨hsame, hstep⟩ := guard_eq_ok hstep
      obtain ⟨m, hm, hstep⟩ := bind_eq_ok_iff.1 hstep
      rw [liftM_eq_ok_iff] at hm
      cases hstep
      exact ⟨not_not.1 hsame, m, hm, _, fun _ _ => rfl⟩
  obtain ⟨op, hrun⟩ := hrun
  have hfollows := follows_of_make h hm (h.rank r hr) (h.components_lt hs hr)
  have hlcount : t.components l = t.components i := by rw [Tree.components, hsame, Tree.components]
  have hlt := h.components_lt hs hi
  have hrounds : assignments [m] (Int64.ofNat (t.components i)) = t.components i := by
    apply IndexMap.assignments_eq (by omega) le_rfl _ (.inl rfl)
    rw [List.forall_mem_singleton]
    exact hfollows.length.imp_right And.left
  intro W S inputs f v hS hsmall _ hf
  have hend := h.end_le hs hi
  have hright : ∀ k < t.components i,
      m.get k = .ok (reindex t.dim.toInt.toNat (t.outer.row i) (t.outer.row r) k : Nat) ∧
        t.first r + reindex t.dim.toInt.toNat (t.outer.row i) (t.outer.row r) k < t.first i := by
    intro k hk
    have hlt : reindex t.dim.toInt.toNat (t.outer.row i) (t.outer.row r) k < t.components r :=
      reindex_lt h.dim_pos hk
    exact ⟨hfollows.get k hk, by omega⟩
  obtain ⟨f', hrun', hf'⟩ := runElementwise_shows hf op hsmall (hend.trans hS)
    (show t.first l + t.components i ≤ t.first i by omega)
    (show t.first r + t.components i ≤ S by omega) hrounds hright
  refine ⟨f', _, ?_, hf'⟩
  rw [hrun, hs.offset_eq hi, hs.offset_eq hl, hs.offset_eq hr, h.size_eq hi]
  exact hrun'

/-- Running a product or ratio is safe. -/
lemma contraction_safe (hkind : kind = .product ∨ kind = .ratio) (hkind' : t.kind? i = some kind)
    (hstep : Plan.step A t i kind = .ok step) :
    Node.Safe A t constants ⟨kind, (t.offset i).toInt64, t.size i, step⟩ := by
  -- The steps of a product and of a ratio differ in the operation alone.
  obtain ⟨own, left, right, hown, hleft, hright, op, hrun⟩ : ∃ own left right,
      IndexMap.make (Index.unique (t.outer.row l ++ t.outer.row r)) (t.outer.row i) t.dim = .ok own ∧
      IndexMap.make (Index.unique (t.outer.row l ++ t.outer.row r)) (t.outer.row l) t.dim = .ok left ∧
      IndexMap.make (Index.unique (t.outer.row l ++ t.outer.row r)) (t.outer.row r) t.dim
        = .ok right ∧
      ∃ op : α → α → α, ∀ inputs f,
        (⟨kind, (t.offset i).toInt64, t.size i, step⟩ : Node α).run A inputs f
          = runContraction A op (t.offset i).toInt64 (t.size i) (t.offset l).toInt64
            (t.offset r).toInt64 own left right f := by
    unfold Plan.step at hstep
    rw [hchildren] at hstep
    rcases hkind with rfl | rfl
    all_goals
      dsimp only at hstep
      obtain ⟨all, hall, hstep⟩ := bind_eq_ok_iff.1 hstep
      obtain ⟨rfl, -⟩ := Index.concat_eq_ok_iff.1 (liftM_eq_ok_iff.1 hall)
      obtain ⟨own, hown, hstep⟩ := bind_eq_ok_iff.1 hstep
      obtain ⟨left, hleft, hstep⟩ := bind_eq_ok_iff.1 hstep
      obtain ⟨right, hright, hstep⟩ := bind_eq_ok_iff.1 hstep
      cases hstep
      exact ⟨own, left, right, liftM_eq_ok_iff.1 hown, liftM_eq_ok_iff.1 hleft,
        liftM_eq_ok_iff.1 hright, _, fun _ _ => rfl⟩
  have hfown := follows_of_make h hown (h.rank i hi) (h.components_lt hs hi)
  have hfleft := follows_of_make h hleft (h.rank l hl) (h.components_lt hs hl)
  have hfright := follows_of_make h hright (h.rank r hr) (h.components_lt hs hr)
  have hover : t.runsOver i = Index.unique (t.outer.row l ++ t.outer.row r) := by
    have hbind : t.kind? i ≠ some .bind := by
      rcases hkind with rfl | rfl <;> simp [hkind']
    rw [Tree.runsOver, if_neg hbind, hchildren]
    rfl
  have hleft_lt : ∀ k < t.dim.toInt.toNat ^ (Index.unique (t.outer.row l ++ t.outer.row r)).length,
      reindex t.dim.toInt.toNat (Index.unique (t.outer.row l ++ t.outer.row r)) (t.outer.row l) k
        < t.components l := fun k hk => reindex_lt h.dim_pos hk
  have hright_lt : ∀ k < t.dim.toInt.toNat ^ (Index.unique (t.outer.row l ++ t.outer.row r)).length,
      reindex t.dim.toInt.toNat (Index.unique (t.outer.row l ++ t.outer.row r)) (t.outer.row r) k
        < t.components r := fun k hk => reindex_lt h.dim_pos hk
  have hlt := h.components_lt hs hi
  -- Soundness of the tree makes the window no longer than the assignments of the inner labels,
  -- which then are the number of rounds.
  have hrounds : assignments [own, left, right] (Int64.ofNat (t.components i))
      = t.dim.toInt.toNat ^ (Index.unique (t.outer.row l ++ t.outer.row r)).length := by
    refine hfown.assignments (hlt.trans (by decide)) ?_ ?_
    · rw [← hover]
      refine hs.rounds i hi ?_
      rcases hkind with rfl | rfl <;> simp [hkind']
    · rw [List.forall_mem_cons, List.forall_mem_singleton]
      exact ⟨⟨_, hfleft⟩, _, hfright⟩
  intro W S inputs f v hS hsmall _ hf
  have hend := h.end_le hs hi
  obtain ⟨f', hrun', hf'⟩ := runContraction_shows (A := A) hf op hsmall (hend.trans hS)
    (show t.first l < 2 ^ 63 by omega) (show t.first r < 2 ^ 63 by omega) hrounds
    (fun k hk => ⟨hfown.get k hk, reindex_lt h.dim_pos hk⟩)
    (fun k hk => ⟨hfleft.get k hk, by have := hleft_lt k hk; omega⟩)
    (fun k hk => ⟨hfright.get k hk, by have := hright_lt k hk; omega⟩)
  refine ⟨f', _, ?_, hf'⟩
  rw [hrun, hs.offset_eq hi, hs.offset_eq hl, hs.offset_eq hr, h.size_eq hi]
  exact hrun'

/-- Running a power is safe. -/
lemma power_safe (hstep : Plan.step A t i .power = .ok step) :
    Node.Safe A t constants ⟨.power, (t.offset i).toInt64, t.size i, step⟩ := by
  unfold Plan.step at hstep
  rw [hchildren] at hstep
  dsimp only at hstep
  obtain ⟨hone, hstep⟩ := guard_eq_ok hstep
  cases hstep
  intro W S inputs f v hS hsmall _ hf
  have hend := h.end_le hs hi
  have hi_pos := h.components_pos i
  have hl_pos := h.components_pos l
  have hr_pos := h.components_pos r
  obtain ⟨f', hrun, hf'⟩ := run_power_shows (A := A) inputs .power hf hsmall
    (show t.first i + 1 ≤ S by omega) (show t.first l + 1 ≤ t.first i by omega)
    (show t.first r + 1 ≤ t.first i by omega)
  refine ⟨f', _, ?_, hf'⟩
  rw [Int.toNat_natCast, Int.toNat_natCast, not_not.1 hone, hs.offset_eq hi, hs.offset_eq hl,
    hs.offset_eq hr]
  exact hrun

end Binary

section Unary

variable {c : Nat} (h : t.Valid) (hs : t.Sound) (hi : i < t.nodes)
  (hchildren : t.children i = ((c : Int), Tree.noChild)) (hc : c < t.nodes)
  (hend : t.first c + t.components c ≤ t.first i)

include h hs hi hchildren hc hend

/-- Running a relabelling is safe. -/
lemma relabel_safe (hkind : t.kind? i = some .bind) (hstep : Plan.step A t i .bind = .ok step) :
    Node.Safe A t constants ⟨.bind, (t.offset i).toInt64, t.size i, step⟩ := by
  unfold Plan.step at hstep
  rw [hchildren] at hstep
  dsimp only at hstep
  obtain ⟨hlength, hstep⟩ := guard_eq_ok hstep
  obtain ⟨own, hown, hstep⟩ := bind_eq_ok_iff.1 hstep
  obtain ⟨left, hleft, hstep⟩ := bind_eq_ok_iff.1 hstep
  cases hstep
  rw [Int.toNat_natCast, not_not] at hlength
  have hcount : t.dim.toInt.toNat ^ (t.binding.row i).length = t.components c := by
    rw [hlength, Tree.components]
  have hfown := follows_of_make h (liftM_eq_ok_iff.1 hown) (h.rank i hi) (h.components_lt hs hi)
  have hfleft := follows_of_make h (liftM_eq_ok_iff.1 hleft) (h.bound i hi)
    (hcount.trans_lt (h.components_lt hs hc))
  have hlt := h.components_lt hs hi
  have hrounds : assignments [own, left] (Int64.ofNat (t.components i))
      = t.dim.toInt.toNat ^ (Index.unique (t.binding.row i)).length := by
    refine hfown.assignments (hlt.trans (by decide)) ?_ (List.forall_mem_singleton.2 ⟨_, hfleft⟩)
    have hover : t.runsOver i = Index.unique (t.binding.row i) := by rw [Tree.runsOver, if_pos hkind]
    rw [← hover]
    exact hs.rounds i hi (by simp [hkind])
  intro W S inputs f v hS hsmall _ hf
  have hend' := h.end_le hs hi
  obtain ⟨f', hrun, hf'⟩ := runRelabel_shows (A := A) hf hsmall (hend'.trans hS)
    (show t.first c < 2 ^ 63 by omega) hrounds
    (fun k hk => ⟨hfown.get k hk, reindex_lt h.dim_pos hk⟩)
    (fun k hk => ⟨hfleft.get k hk, Nat.lt_of_lt_of_le (Nat.add_lt_add_left
      ((reindex_lt h.dim_pos hk).trans_eq hcount) _) hend⟩)
  refine ⟨f', _, ?_, hf'⟩
  rw [Int.toNat_natCast, hs.offset_eq hi, hs.offset_eq hc, h.size_eq hi]
  exact hrun

/-- Running a negation is safe. -/
lemma negate_safe (hstep : Plan.step A t i .negate = .ok step) :
    Node.Safe A t constants ⟨.negate, (t.offset i).toInt64, t.size i, step⟩ := by
  unfold Plan.step at hstep
  rw [hchildren] at hstep
  dsimp only at hstep
  obtain ⟨hsame, hstep⟩ := guard_eq_ok hstep
  cases hstep
  have hcount : t.components c = t.components i := by
    have hci := h.components_lt hs hi
    have hcc := h.components_lt hs hc
    rw [Int.toNat_natCast, not_not, h.size_eq hc, h.size_eq hi] at hsame
    have hnat := congrArg (fun n : Int64 => n.toInt.toNat) hsame
    rwa [toNat_toInt_ofNat (hcc.trans (by decide)), toNat_toInt_ofNat (hci.trans (by decide))] at hnat
  intro W S inputs f v hS hsmall _ hf
  have hend' := h.end_le hs hi
  obtain ⟨f', hrun, hf'⟩ := run_negate_shows (A := A) inputs .negate hf hsmall (hend'.trans hS)
    (show t.first c + t.components i ≤ t.first i by omega)
  refine ⟨f', _, ?_, hf'⟩
  rw [Int.toNat_natCast, hs.offset_eq hi, hs.offset_eq hc, h.size_eq hi]
  exact hrun

/-- Running a function is safe. -/
lemma function_safe (hkind : t.kind? i = some .function)
    (hstep : Plan.step A t i .function = .ok step) :
    Node.Safe A t constants ⟨.function, (t.offset i).toInt64, t.size i, step⟩ := by
  unfold Plan.step at hstep
  rw [hchildren] at hstep
  dsimp only at hstep
  obtain ⟨hone, hstep⟩ := guard_eq_ok hstep
  cases hstep
  obtain ⟨func, hfunc⟩ := Option.isSome_iff_exists.1 (hs.func i hi hkind)
  have hcode : func.code = t.funcs.getD i 0 := by simpa using List.find?_some hfunc
  intro W S inputs f v hS hsmall _ hf
  have hend' := h.end_le hs hi
  have hi_pos := h.components_pos i
  have hc_pos := h.components_pos c
  obtain ⟨f', hrun, hf'⟩ := run_apply_shows (A := A) inputs .function hf func hsmall
    (show t.first i + 1 ≤ S by omega) (show t.first c + 1 ≤ t.first i by omega)
  refine ⟨f', _, ?_, hf'⟩
  rw [Int.toNat_natCast, not_not.1 hone, ← hcode, hs.offset_eq hi, hs.offset_eq hc]
  exact hrun

end Unary

section Leaf

variable (h : t.Valid) (hs : t.Sound) (hi : i < t.nodes)

include h hs hi

/-- Filling a window is safe if there is a value for each component. -/
lemma fill_safe {values : Array α} (hsize : values.size = t.components i) :
    Node.Safe A t constants ⟨kind, (t.offset i).toInt64, t.size i, .fill values⟩ := by
  intro W S inputs f v hS hsmall _ hf
  have hend := h.end_le hs hi
  obtain ⟨f', hrun, hf'⟩ := run_fill_shows (A := A) inputs kind hf (x := fun k => values.getD k A.zero)
    hsmall (hend.trans hS) hsize fun k hk => by simp [Array.getD, hsize, hk]
  refine ⟨f', _, ?_, hf'⟩
  rw [hs.offset_eq hi, h.size_eq hi]
  exact hrun

/-- Running a literal is safe. -/
lemma literal_safe (hstep : Plan.step A t i .literal = .ok step) :
    Node.Safe A t constants ⟨.literal, (t.offset i).toInt64, t.size i, step⟩ := by
  unfold Plan.step at hstep
  cases hstep
  have hlt := h.components_lt hs hi
  refine fill_safe h hs hi ?_
  rw [Array.size_replicate, h.size_eq hi]
  exact toNat_toInt_ofNat (hlt.trans (by decide))

omit h hs hi in
/-- The pattern of a symbol has a value for each component. -/
lemma size_symbolPattern {binding outer : Index} {dim : Int64} {values : Array α}
    (hpattern : symbolPattern A kind binding outer dim = .ok values) :
    values.size = (Layout.power dim (Int64.ofNat outer.length)).toInt.toNat := by
  rw [symbolPattern] at hpattern
  obtain ⟨own, -, hpattern⟩ := bind_eq_ok_iff.1 hpattern
  obtain ⟨visits, -, hpattern⟩ := bind_eq_ok_iff.1 hpattern
  refine foldlM_preserves (P := fun values : Array α => values.size = _) ?_ Array.size_replicate
    hpattern
  intro entry _ values values' hsize hround
  obtain ⟨q, -, hround⟩ := bind_eq_ok_iff.1 hround
  cases hround
  rw [Array.size_modify, hsize]

/-- Running a Kronecker or Levi-Civita symbol is safe. -/
lemma symbol_safe (hkind : kind = .delta ∨ kind = .epsilon)
    (hstep : Plan.step A t i kind = .ok step) :
    Node.Safe A t constants ⟨kind, (t.offset i).toInt64, t.size i, step⟩ := by
  obtain ⟨values, hvalues, rfl⟩ : ∃ values,
      symbolPattern A kind (t.binding.row i) (t.outer.row i) t.dim = .ok values ∧
        step = .fill values := by
    unfold Plan.step at hstep
    rcases hkind with rfl | rfl
    all_goals
      obtain ⟨-, hstep⟩ := guard_eq_ok hstep
      obtain ⟨values, hvalues, hstep⟩ := bind_eq_ok_iff.1 hstep
      cases hstep
      exact ⟨values, liftM_eq_ok_iff.1 hvalues, rfl⟩
  have hlt := h.components_lt hs hi
  refine fill_safe h hs hi ?_
  rw [size_symbolPattern hvalues, h.dim_eq, Layout.power_ofNat _ ((h.rank i hi).trans_lt (by decide))]
  exact toNat_toInt_ofNat (hlt.trans (by decide))

/-- Reading scalars is safe, and reading constants if they are there. -/
lemma reading_safe (hkind : kind = .scalar ∨ kind = .constant)
    (hids : kind = .constant → ∀ e ∈ t.ids.row i, 0 ≤ e.toInt ∧ e.toInt < constants)
    (hstep : Plan.step A t i kind = .ok step) :
    Node.Safe A t constants ⟨kind, (t.offset i).toInt64, t.size i, step⟩ := by
  obtain ⟨own, hlength, hown, hstep⟩ : ∃ own,
      ((t.ids.row i).length : Int)
        = (Layout.power t.dim (Int64.ofNat (Index.unique (t.binding.row i)).length)).toInt ∧
      IndexMap.make (Index.unique (t.binding.row i)) (t.outer.row i) t.dim = .ok own ∧
      step = if kind = .scalar then .readScalars (t.ids.row i) own
        else .readConstants (t.ids.row i) own := by
    unfold Plan.step at hstep
    rcases hkind with rfl | rfl
    all_goals
      obtain ⟨hlength, hstep⟩ := guard_eq_ok hstep
      obtain ⟨own, hown, hstep⟩ := bind_eq_ok_iff.1 hstep
      cases hstep
      exact ⟨own, not_not.1 hlength, liftM_eq_ok_iff.1 hown, rfl⟩
  have hfown := follows_of_make h hown (h.rank i hi) (h.components_lt hs hi)
  have hunique : (Index.unique (t.binding.row i)).length ≤ Index.capacity :=
    (Index.length_unique_le _).trans (h.bound i hi)
  -- At most eight labels in a dimension of at most sixteen: the power does not wrap.
  have hcount : (t.ids.row i).length
      = t.dim.toInt.toNat ^ (Index.unique (t.binding.row i)).length := by
    have hle : t.dim.toInt.toNat ^ (Index.unique (t.binding.row i)).length ≤ 16 ^ 8 := by
      have hdim : t.dim.toInt.toNat ≤ 16 := by
        have := h.dim.2
        omega
      exact Layout.components_le hdim hunique
    rw [h.dim_eq, Layout.power_ofNat _ (hunique.trans_lt (by decide)),
      Int64.toInt_ofNat_of_lt (hle.trans_lt (by decide))] at hlength
    exact_mod_cast hlength
  have hgets : ∀ k < (t.ids.row i).length, own.get k
        = .ok (reindex t.dim.toInt.toNat (Index.unique (t.binding.row i)) (t.outer.row i) k : Nat) ∧
      reindex t.dim.toInt.toNat (Index.unique (t.binding.row i)) (t.outer.row i) k
        < t.components i := by
    intro k hk
    rw [hcount] at hk
    exact ⟨hfown.get k hk, reindex_lt h.dim_pos hk⟩
  intro W S inputs f v hS hsmall hconstants hf
  have hend := h.end_le hs hi
  rw [hstep, hs.offset_eq hi, h.size_eq hi]
  rcases hkind with rfl | rfl
  · have hvalue : ∀ k e, (t.ids.row i)[k]? = some e → ∀ l < W,
        (.ok (inputs.field e.toInt64 (inputs.point + Int64.ofNat l)) : Except Fault α)
          = .ok (inputs.field ((t.ids.row i).getD k 0).toInt64 (inputs.point + Int64.ofNat l)) := by
      intro k e he l _
      rw [List.getD, he]
      rfl
    obtain ⟨f', hrun, hf'⟩ := runLeaf_shows (A := A) hf hsmall (hend.trans hS) hgets hvalue
    exact ⟨f', _, hrun, hf'⟩
  · have hvalue : ∀ k e, (t.ids.row i)[k]? = some e → ∀ l < W, constantValue inputs e
        = .ok ((inputs.constants[((t.ids.row i).getD k 0).toInt.toNat]?).getD A.zero) := by
      intro k e he l _
      obtain ⟨hpos, hlt⟩ := hids rfl e (List.mem_of_getElem? he)
      rw [constantValue_eq_ok A.zero hpos (by rw [hconstants]; exact hlt), List.getD, he]
      rfl
    obtain ⟨f', hrun, hf'⟩ := runLeaf_shows (A := A) hf hsmall (hend.trans hS) hgets hvalue
    exact ⟨f', _, hrun, hf'⟩

end Leaf

/-- Every node of a sound tree runs. -/
theorem node_safe (h : t.Valid) (hs : t.Sound) (hi : i < t.nodes)
    (hids : t.kind? i = some .constant → ∀ e ∈ t.ids.row i, 0 ≤ e.toInt ∧ e.toInt < constants)
    {n : Node α} (hnode : Plan.node A t i = .ok n) : n.Safe A t constants := by
  rw [node] at hnode
  cases hkind : t.kind? i with
  | none =>
    rw [hkind] at hnode
    cases hnode
  | some kind =>
    rw [hkind] at hnode
    obtain ⟨step, hstep, hnode⟩ := bind_eq_ok_iff.1 hnode
    cases hnode
    have harity : t.arity i = kind.arity := by rw [Tree.arity, hkind]
    cases h.operands hi with
    | leaf hleaf =>
      rw [harity] at hleaf
      cases kind with
      | literal => exact literal_safe h hs hi hstep
      | delta => exact symbol_safe h hs hi (.inl rfl) hstep
      | epsilon => exact symbol_safe h hs hi (.inr rfl) hstep
      | scalar => exact reading_safe h hs hi (.inl rfl) nofun hstep
      | constant => exact reading_safe h hs hi (.inr rfl) (fun _ => hids hkind) hstep
      | tensor => cases hstep
      | _ => cases hleaf
    | unary c hunary hchildren hc hend =>
      rw [harity] at hunary
      have hc' : c < t.nodes := hc.trans hi
      have hbelow := h.operand_le hs hc' hend
      cases kind with
      | bind => exact relabel_safe h hs hi hchildren hc' hbelow hkind hstep
      | negate => exact negate_safe h hs hi hchildren hc' hbelow hstep
      | function => exact function_safe h hs hi hchildren hc' hbelow hkind hstep
      | derivative => cases hstep
      | _ => cases hunary
    | binary l r hbinary hchildren hl hr hlend hrend =>
      rw [harity] at hbinary
      have hl' : l < t.nodes := hl.trans hi
      have hr' : r < t.nodes := hr.trans hi
      have hlbelow := h.operand_le hs hl' hlend
      have hrbelow := h.operand_le hs hr' hrend
      cases kind with
      | sum => exact elementwise_safe h hs hi hchildren hl' hr' hlbelow hrbelow (.inl rfl) hstep
      | difference => exact elementwise_safe h hs hi hchildren hl' hr' hlbelow hrbelow (.inr rfl) hstep
      | product =>
        exact contraction_safe h hs hi hchildren hl' hr' hlbelow hrbelow (.inl rfl) hkind hstep
      | ratio =>
        exact contraction_safe h hs hi hchildren hl' hr' hlbelow hrbelow (.inr rfl) hkind hstep
      | power => exact power_safe h hs hi hchildren hl' hr' hlbelow hrbelow hstep
      | _ => cases hbinary

/-! ### Whole plans -/

/-- The context of a node changes errors only. -/
lemma atNode_eq_ok_iff {β : Type} {x : Except Error β} {b : β} : atNode i x = .ok b ↔ x = .ok b := by
  cases x with
  | error e => cases e <;> exact ⟨nofun, nofun⟩
  | ok b' => rfl

/-- The plan of a tree has nodes of the tree and ends in its root. -/
lemma ofTree_eq {plan : Plan α} (hplan : ofTree A t = .ok plan) :
    t.Valid ∧ (∀ n ∈ plan.nodes, ∃ i < t.nodes, Plan.node A t i = .ok n) ∧
      plan.root = (t.offset t.root).toInt64 ∧ plan.rootSize = t.size t.root := by
  obtain ⟨⟨⟩, hvalidate, hplan⟩ := bind_eq_ok_iff.1 hplan
  obtain ⟨nodes, hnodes, hplan⟩ := bind_eq_ok_iff.1 hplan
  cases hplan
  refine ⟨Tree.valid_of_validate hvalidate, fun n hn => ?_, rfl, rfl⟩
  obtain ⟨i, hi, hnode⟩ := exists_of_mem_right (mapM_eq_ok_iff.1 hnodes) hn
  exact ⟨i, List.mem_range.1 hi, atNode_eq_ok_iff.1 hnode⟩

/-- The plan of a sound tree runs on any frame that has room for it. -/
theorem run_safe {plan : Plan α} (hplan : ofTree A t = .ok plan) (hs : t.Sound) (inputs : Inputs α)
    (hids : ∀ i < t.nodes, t.kind? i = some .constant → ∀ e ∈ t.ids.row i,
      0 ≤ e.toInt ∧ e.toInt < inputs.constants.size) {W S : Nat} {f : Frame α} {v : Nat → Nat → α}
    (hS : t.storage ≤ S) (hsmall : S < 2 ^ 63) (hf : f.Shows W S v) :
    ∃ f' v', plan.run A inputs f = .ok f' ∧ f'.Shows W S v' := by
  obtain ⟨hvalid, hnodes, -, -⟩ := ofTree_eq hplan
  have hloop : ∃ f', plan.nodes.foldlM (fun f n => n.run A inputs f) f = .ok f' ∧
      ∃ v', f'.Shows W S v' := by
    apply foldlM_ok_of_forall (P := fun _ (f' : Frame α) => ∃ v', f'.Shows W S v') ⟨v, hf⟩
    rintro pre n post g hsplit ⟨u, hg⟩
    obtain ⟨i, hi, hnode⟩ := hnodes n (by rw [hsplit]; simp)
    obtain ⟨g', u', hrun, hg'⟩ :=
      node_safe hvalid hs hi (hids i hi) hnode W S inputs g u hS hsmall rfl hg
    exact ⟨g', hrun, u', hg'⟩
  obtain ⟨f', hrun, v', hf'⟩ := hloop
  exact ⟨f', v', hrun, hf'⟩

section Root

variable {plan : Plan α} {f : Frame α} {W S : Nat} {v : Nat → Nat → α}

/-- The root window of a sound tree is inside storage that has room for the tree. -/
lemma window_root (hplan : ofTree A t = .ok plan) (hs : t.Sound) (hS : t.storage ≤ S)
    (hsmall : S < 2 ^ 63) (hf : f.Shows W S v) : f.window plan.root plan.rootSize = .ok () := by
  obtain ⟨h, -, hroot, hsize⟩ := ofTree_eq hplan
  have hin := h.root_lt
  rw [hroot, hsize, h.size_eq hin, hs.offset_eq hin]
  exact hf.window hS hsmall

/-- Its components can be read in every lane. -/
lemma result_root (hplan : ofTree A t = .ok plan) (hs : t.Sound) (hS : t.storage ≤ S)
    (hf : f.Shows W S v) {k l : Nat} (hk : k < t.components t.root) (hl : l < W) :
    plan.result f k l = .ok (v (t.first t.root + k) l) := by
  obtain ⟨h, -, hroot, hsize⟩ := ofTree_eq hplan
  have hin := h.root_lt
  have hlt := h.storage_lt hs
  have hend : t.first t.root + t.components t.root ≤ S := hS
  rw [Tree.storage] at hlt
  rw [result, hsize, h.size_eq hin, hroot, hs.offset_eq hin, Int64.toInt_ofNat_of_lt (by omega),
    Int64.toInt_ofNat_of_lt (by omega), if_neg (by omega)]
  exact hf.read (by push_cast; rfl) (by omega) hl

end Root

end Plan

end Indicial
