import Indicial.Proofs.Plan.Safety
import Indicial.Proofs.Plan.Size
import Indicial.Proofs.Tree.Postorder
import Mathlib.Order.ConditionallyCompleteLattice.Basic
import Mathlib.Data.Int.ConditionallyCompleteOrder
import Mathlib.Order.CompletePartialOrder

/-!
# The storage of checked trees

The window of a node is an interval of slots. In any tree that passes its checks, windows follow each
other in the order of the nodes: they are disjoint, and those of operands lie below that of the node.
The depth is a word, and the first offset is not looked at. So the windows lie between slot zero and
the depth exactly if the first offset is not negative and the root window ends at a word; then the
depth is the least number of slots that holds them, and a run needs that many slots in every lane and
no more (`storage_layout`).

Two trees of one node pass the checks and break one of the two conditions each (`stray_windows`).
-/

namespace Indicial

variable {α : Type}

/-! ### Where the windows lie -/

namespace Tree

variable {t : Tree α} {i j : Nat}

/-- The slots of a node's window, as true numbers. -/
def window (t : Tree α) (i : Nat) : Set Int :=
  Set.Ico (t.offset i).toInt ((t.offset i).toInt + t.components i)

/-- The windows of all nodes are among the slots below `slots`. -/
def FitsIn (t : Tree α) (slots : Int) : Prop := ∀ i < t.nodes, t.window i ⊆ Set.Ico 0 slots

/-- The window of an operand ends before that of its node begins. -/
lemma Valid.operand_below (h : t.Valid) (hi : i < t.nodes) (hij : t.HasOperand i j) :
    (t.offset j).toInt + t.components j ≤ (t.offset i).toInt := by
  cases h.operands hi with
  | leaf harity => exact absurd hij (not_hasOperand_of_leaf harity)
  | unary c _ hchildren hc hend =>
    rw [HasOperand, hchildren, noChild] at hij
    obtain rfl : c = j := by omega
    rwa [← h.windowEnd_eq_add (hc.trans hi)]
  | binary l r _ hchildren hl hr hlend hrend =>
    rw [HasOperand, hchildren] at hij
    rcases hij with hij | hij
    · obtain rfl : l = j := by omega
      rwa [← h.windowEnd_eq_add (hl.trans hi)]
    · obtain rfl : r = j := by omega
      rwa [← h.windowEnd_eq_add (hr.trans hi)]

/-- Windows of earlier and later nodes have no slot in common. -/
lemma Valid.disjoint_of_lt (h : t.Valid) (hij : i < j) (hj : j < t.nodes) :
    Disjoint (t.window i) (t.window j) := by
  rw [Set.disjoint_left]
  rintro slot ⟨-, hend⟩ ⟨hbegin, -⟩
  have hle := h.windowEnd_le hij hj
  rw [h.windowEnd_eq_add (hij.trans hj)] at hle
  omega

/-- Windows of two nodes have no slot in common. -/
lemma Valid.disjoint_window (h : t.Valid) (hi : i < t.nodes) (hj : j < t.nodes) (hne : i ≠ j) :
    Disjoint (t.window i) (t.window j) := by
  rcases Nat.lt_or_gt_of_ne hne with hlt | hgt
  · exact h.disjoint_of_lt hlt hj
  · exact (h.disjoint_of_lt hgt hi).symm

/-- No window begins before the first one. -/
lemma Valid.offset_zero_le (h : t.Valid) (hi : i < t.nodes) :
    (t.offset 0).toInt ≤ (t.offset i).toInt := by
  rcases Nat.eq_zero_or_pos i with rfl | hpos
  · exact le_rfl
  · have hle := h.windowEnd_le hpos hi
    rw [h.windowEnd_eq_add h.nodes_pos] at hle
    omega

/-- The first window begins lowest and the root window ends highest. -/
lemma Valid.fitsIn_iff (h : t.Valid) {slots : Int} :
    t.FitsIn slots ↔ 0 ≤ (t.offset 0).toInt ∧ t.windowEnd t.root ≤ slots := by
  constructor
  · intro hfits
    have hfirst := h.components_pos 0
    have hlast := h.components_pos t.root
    refine ⟨(hfits 0 h.nodes_pos ⟨le_rfl, by omega⟩).1, ?_⟩
    -- The last slot of the root window.
    have hin := hfits t.root h.root_lt (a := (t.offset t.root).toInt + t.components t.root - 1)
      ⟨by omega, by omega⟩
    rw [h.windowEnd_eq_add h.root_lt]
    have := hin.2
    omega
  · rintro ⟨hfirst, hlast⟩ i hi slot ⟨hbegin, hend⟩
    have hlow := h.offset_zero_le hi
    have hhigh := h.windowEnd_le_root hi
    rw [h.windowEnd_eq_add hi] at hhigh
    exact ⟨by omega, by omega⟩

/-- The recorded depth holds the root window exactly if the true end of the window is a word. -/
lemma Valid.windowEnd_root_le_depth_iff (h : t.Valid) :
    t.windowEnd t.root ≤ t.depth.toInt ↔ t.windowEnd t.root < 2 ^ 31 := by
  have hword := t.depth.toInt_lt
  have hsize := (h.size_bounds h.root_lt).1
  constructor
  · intro hle
    omega
  · intro hlt
    rw [h.depth, toInt_watermark (by omega) hlt]

end Tree

/-! ### How much storage a run needs -/

namespace Plan

variable {t : Tree α} {plan : Plan α}

/-- The slots up to the end of the root window are enough, and reading the root needs them all. -/
lemma exists_results_iff (hplan : ofTree A t = .ok plan) (hs : t.Sound) (inputs : Inputs α)
    (hids : ∀ i < t.nodes, t.kind? i = some .constant → ∀ e ∈ t.ids.row i,
      0 ≤ e.toInt ∧ e.toInt < inputs.constants.size) (f : Frame α) :
    (∃ xs, (plan.run A inputs f >>= plan.results) = .ok xs) ↔
      t.depth.toInt * f.width ≤ f.stack.size := by
  obtain ⟨h, -, hroot, hsize⟩ := ofTree_eq hplan
  have hstorage := h.storage_eq hs
  have hlt := h.storage_lt hs
  constructor
  · rintro ⟨xs, hxs⟩
    obtain ⟨g, hrun, hxs⟩ := bind_eq_ok_iff.1 hxs
    obtain ⟨⟨⟩, hwindow, -⟩ := bind_eq_ok_iff.1 hxs
    -- The root stands last, so its window ends where the storage does.
    have hend : plan.root.toInt + plan.rootSize.toInt = t.depth.toInt := by
      rw [hroot, hsize, Int32.toInt_toInt64, ← Tree.windowEnd, h.windowEnd_eq hs h.root_lt, ← hstorage,
        Tree.storage]
    obtain ⟨hwidth, hstack⟩ := sameSize_run hrun
    rw [Frame.window, hend, hwidth, hstack] at hwindow
    split at hwindow
    case isTrue hin =>
      simp only [Bool.and_eq_true, decide_eq_true_eq] at hin
      exact hin.2
    case isFalse => cases hwindow
  · intro hroom
    have hfits : t.storage * f.width ≤ f.stack.size := by
      rw [← hstorage] at hroom
      exact_mod_cast hroom
    obtain ⟨v, hf⟩ := Frame.exists_shows rfl hfits A.zero
    obtain ⟨g, u, hrun, hg⟩ := run_safe hplan hs inputs hids le_rfl (by omega) hf
    have hcount : plan.rootSize.toInt.toNat = t.components t.root := by
      have := h.components_lt hs h.root_lt
      rw [hsize, h.size_eq h.root_lt, toNat_toInt_ofNat (by omega)]
    obtain ⟨rows, hrows⟩ : ∃ rows, ((List.range plan.rootSize.toInt.toNat).mapM fun o =>
        (List.range g.width).mapM fun l => plan.result g o l) = .ok rows := by
      refine exists_mapM_eq_ok fun k hk => exists_mapM_eq_ok fun l hl => ?_
      rw [List.mem_range, hcount] at hk
      rw [List.mem_range, hg.width] at hl
      exact ⟨_, result_root hplan hs le_rfl hg hk hl⟩
    refine ⟨rows.flatten, ?_⟩
    rw [hrun, ok_bind, results, window_root hplan hs le_rfl (by omega) hg, ok_bind, hrows]
    rfl

end Plan

namespace Tree

variable {t : Tree α}

/-- In a tree that passes its checks, windows of operands lie below that of the node and windows of
different nodes are disjoint. All windows lie below the depth if and only if the first of them does
not begin below zero and the last ends at a word. Then the depth is the least number of slots that
holds them, and a run on any storage succeeds exactly if there are that many slots in each lane. -/
theorem storage_layout (h : t.validate = .ok ()) :
    (∀ i < t.nodes, ∀ j, t.HasOperand i j →
      (t.offset j).toInt + t.components j ≤ (t.offset i).toInt) ∧
    (∀ i < t.nodes, ∀ j < t.nodes, i ≠ j → Disjoint (t.window i) (t.window j)) ∧
    (t.FitsIn t.depth.toInt ↔ 0 ≤ (t.offset 0).toInt ∧ t.windowEnd t.root < 2 ^ 31) ∧
    (t.FitsIn t.depth.toInt → IsLeast {slots | t.FitsIn slots} t.depth.toInt) ∧
    ∀ (A : Arith α) (plan : Plan α), Plan.ofTree A t = .ok plan → t.Sound → ∀ inputs : Inputs α,
      (∀ i < t.nodes, t.kind? i = some .constant → ∀ e ∈ t.ids.row i,
        0 ≤ e.toInt ∧ e.toInt < inputs.constants.size) →
      ∀ f : Frame α, (∃ xs, (plan.run A inputs f >>= plan.results) = .ok xs) ↔
        t.depth.toInt * f.width ≤ f.stack.size := by
  have hvalid := valid_of_validate h
  have hdepth := hvalid.windowEnd_root_le_depth_iff
  refine ⟨fun i hi j => hvalid.operand_below hi, fun i hi j => hvalid.disjoint_window hi, ?_, ?_, ?_⟩
  · rw [hvalid.fitsIn_iff, hdepth]
  · intro hfits
    refine ⟨hfits, fun slots hslots => ?_⟩
    have hlast := (hvalid.fitsIn_iff.1 hslots).2
    have hword := hdepth.1 (hvalid.fitsIn_iff.1 hfits).2
    have hsize := (hvalid.size_bounds hvalid.root_lt).1
    rwa [hvalid.depth, toInt_watermark (by omega) hword]
  · intro A plan hplan hs inputs hids f
    exact Plan.exists_results_iff hplan hs inputs hids f

/-- Storage for `-(a(i) + b(i))` in the plane is eight slots. -/
theorem planeSum_layout :
    planeSum.FitsIn 8 ∧ Disjoint (planeSum.window 0) (planeSum.window 1) ∧
      ∃ plan, Plan.ofTree Arith.float (planeSum.map Float.ofNat) = .ok plan ∧
        ∀ (inputs : Inputs Float) (f : Frame Float),
          (∃ xs, (plan.run Arith.float inputs f >>= plan.results) = .ok xs) ↔
            8 * f.width ≤ f.stack.size := by
  obtain ⟨-, hdisjoint, hfits, -⟩ := storage_layout (t := planeSum) (by decide +kernel)
  have hplan : (Plan.ofTree Arith.float (planeSum.map Float.ofNat)).toOption.any (fun _ => true)
      = true := by decide +kernel
  obtain ⟨plan, hplan, -⟩ := toOption_any_iff.1 hplan
  have hsound : (planeSum.map Float.ofNat).Sound := ⟨by decide, by decide, by decide, by decide⟩
  have hconstant : ∀ i < (planeSum.map Float.ofNat).nodes,
      (planeSum.map Float.ofNat).kind? i ≠ some .constant := by decide
  obtain ⟨-, -, -, -, hruns⟩ := storage_layout (t := planeSum.map Float.ofNat) (by decide +kernel)
  refine ⟨hfits.2 (by decide), hdisjoint 0 (by decide) 1 (by decide) (by decide), plan, hplan, ?_⟩
  intro inputs f
  rw [hruns Arith.float plan hplan hsound inputs (fun i hi hkind => absurd hkind (hconstant i hi)) f]
  exact Int.ofNat_le (m := 8 * f.width)

/-- A literal whose free labels are those given. -/
def spread (dim : Int64) (labels : Array UInt8) (offset depth : Int32) : Tree Nat where
  dim := dim
  tags := #[10]
  left := #[-1]
  outer := ⟨#[0, Int32.ofNat labels.size], labels⟩
  inner := ⟨#[0, 0], #[]⟩
  binding := ⟨#[0, 0], #[]⟩
  ids := ⟨#[0, 0], #[]⟩
  values := #[1]
  funcs := #[0]
  offsets := #[offset]
  depth := depth

/-- Below slot zero, and past the largest word: both trees pass their checks with depth zero. -/
theorem stray_windows :
    ((spread 1 #[] (-1) 0).validate = .ok () ∧ ¬(spread 1 #[] (-1) 0).FitsIn 0) ∧
      (spread 16 (.replicate 8 105) 0 0).validate = .ok () ∧
      ¬(spread 16 (.replicate 8 105) 0 0).FitsIn 0 := by
  have hbelow : (spread 1 #[] (-1) 0).validate = .ok () := by decide +kernel
  have hpast : (spread 16 (.replicate 8 105) 0 0).validate = .ok () := by decide +kernel
  refine ⟨⟨hbelow, ?_⟩, hpast, ?_⟩
  · rw [(valid_of_validate hbelow).fitsIn_iff]
    decide
  · rw [(valid_of_validate hpast).fitsIn_iff]
    decide +kernel

end Tree

end Indicial
