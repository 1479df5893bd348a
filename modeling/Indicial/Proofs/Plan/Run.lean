import Indicial.Proofs.Plan.Window

/-!
# Running a plan

The nodes of an expression stand together in its tree, operands first. By induction over what
flattening emits, planning them succeeds, and running them from any contents of storage completes the
window of the root and leaves all slots below the first of them alone (`Site.runs`): when the root of a
binary node runs, the window of its left operand has survived the right one because it lies below.

So a plan of a flattened expression exists (`ofTree_eq_ok`), and its root window holds the numbers
that `Expr.window` says, in every lane those of its own point (`Flattened.run`).
-/

namespace Indicial

open Indicial.Tree Indicial.Expr

variable {α : Type} {A : Arith α} {w : Lowering α} {t : Tree α} {D : Nat} {es : List (Entry α)}
  {n : Expr}

/-- Run from any contents of storage, the nodes complete these windows and leave the slots below
`first` alone. -/
def Plan.Completes (A : Arith α) (D : Nat) (w : Lowering α) (es : List (Entry α))
    (nodes : List (Plan.Node α)) (first : Nat) (windows : List (Expr × Nat)) : Prop :=
  ∀ (W S : Nat) (inputs : Inputs α) (f : Frame α) (v : Nat → Nat → α),
    below D es es.length ≤ S → S < 2 ^ 63 → inputs.Cover es → f.Shows W S v →
    ∃ f' v', nodes.foldlM (fun f node => node.run A inputs f) f = .ok f' ∧ f'.Shows W S v' ∧
      (∀ s < first, v' s = v s) ∧ Complete A D w inputs W v' windows

section Compose

variable {first o : Nat} {nodes more : List (Plan.Node α)} {windows : List (Expr × Nat)}

/-- A plan without nodes has nothing to complete. -/
lemma Plan.completes_nil : Plan.Completes A D w es [] first [] :=
  fun _ _ _ f v _ _ _ hf => ⟨f, v, rfl, hf, fun _ _ => rfl, fun _ hp => by cases hp⟩

/-- Nodes that leave a window alone complete it together with their own. -/
lemma Plan.Completes.append {l r : Expr} {a b second : Nat} (hsecond : first ≤ second)
    (ha : a + D ^ l.outer.length ≤ second) (h : Plan.Completes A D w es nodes first [(l, a)])
    (hmore : Plan.Completes A D w es more second [(r, b)]) :
    Plan.Completes A D w es (nodes ++ more) first [(l, a), (r, b)] := by
  intro W S inputs f v hS hsmall hcover hf
  obtain ⟨f₁, v₁, hrun₁, hf₁, hkeep₁, hl⟩ := h W S inputs f v hS hsmall hcover hf
  obtain ⟨f₂, v₂, hrun₂, hf₂, hkeep₂, hr⟩ := hmore W S inputs f₁ v₁ hS hsmall hcover hf₁
  refine ⟨f₂, v₂, ?_, hf₂, fun s hs => ?_, fun p hp q hq c hc => ?_⟩
  · rw [List.foldlM_append, hrun₁, ok_bind, hrun₂]
  · rw [hkeep₂ s (by omega), hkeep₁ s hs]
  · rcases List.mem_cons.1 hp with rfl | hp
    · have hlt : a + q < second := Nat.lt_of_lt_of_le (Nat.add_lt_add_left hq a) ha
      rw [hkeep₂ _ hlt]
      exact hl (l, a) (by simp) q hq c hc
    · exact hr p hp q hq c hc

/-- The root runs behind its operands. -/
lemma Plan.Completes.root {node : Plan.Node α} (hfirst : first ≤ o)
    (h : Plan.Completes A D w es nodes first windows) (hnode : node.Computes A D w es n o windows) :
    Plan.Completes A D w es (nodes ++ [node]) first [(n, o)] := by
  intro W S inputs f v hS hsmall hcover hf
  obtain ⟨f₁, v₁, hrun₁, hf₁, hkeep, hops⟩ := h W S inputs f v hS hsmall hcover hf
  obtain ⟨f₂, g, hrun₂, hf₂, hg⟩ := hnode hS hsmall hcover hf₁ hops
  refine ⟨f₂, _, ?_, hf₂, fun s hs => ?_, fun p hp q hq c hc => ?_⟩
  · rw [List.foldlM_append, hrun₁, ok_bind]
    simp only [List.foldlM_cons, List.foldlM_nil, hrun₂, ok_bind, pure_eq_ok]
  · rw [overwrite_of_lt _ _ (by omega), hkeep s hs]
  · obtain rfl : p = (n, o) := by simpa using hp
    rw [overwrite_window _ _ hq, hg q hq c hc]

end Compose

/-- Planning some nodes and one more behind them. -/
lemma planned_append {base count : Nat} {nodes : List (Plan.Node α)} {node : Plan.Node α}
    (hnodes : List.Forall₂ (fun i node => Plan.node A t i = .ok node) (List.range' base count) nodes)
    (hnode : Plan.node A t (base + count) = .ok node) :
    List.Forall₂ (fun i node => Plan.node A t i = .ok node) (List.range' base (count + 1))
      (nodes ++ [node]) := by
  rw [List.range'_1_concat]
  exact List.rel_append hnodes (.cons hnode .nil)

/-- The entry at place `i` of a part of a list. -/
lemma getElem?_part {β : Type} {all pre part post : List β} (hall : all = pre ++ part ++ post)
    {i : Nat} {x : β} (hx : part[i]? = some x) : all[pre.length + i]? = some x := by
  have hi := (List.getElem?_eq_some_iff.1 hx).1
  rw [hall, List.append_assoc, List.getElem?_append_right (by omega), Nat.add_sub_cancel_left,
    List.getElem?_append_left hi, hx]

/-- The nodes of an emitted expression can be planned, and running them computes it. -/
theorem Site.runs (s : Site w t D es) {base : Nat} {own : List (Entry α)}
    (h : Emitted w n base own) (hn : n.WellFormed) (hmark : n.hasDerivative = false)
    (pre post : List (Entry α)) (hes : es = pre ++ own ++ post) (hbase : pre.length = base) :
    ∃ nodes, List.Forall₂ (fun i node => Plan.node A t i = .ok node)
        (List.range' base own.length) nodes ∧
      Plan.Completes A D w es nodes (below D es base)
        [(n, below D es (base + own.length - 1))] := by
  induction h generalizing pre post with
  | @leaf n base x hops hroot =>
    have hx : es[base]? = some x := by
      rw [← hbase, ← Nat.add_zero pre.length]
      exact getElem?_part hes rfl
    obtain ⟨node, hnode, hcomputes⟩ := s.plans_leaf (A := A) hx hroot hn hops
    exact ⟨[node], .cons hnode .nil, Plan.completes_nil.root (Nat.le_refl _) hcomputes⟩
  | @unary n e base own x hops harity hemitted hroot ih =>
    obtain ⟨he, -⟩ := wellFormed_operands hops hn
    obtain ⟨hemark, -⟩ := hasDerivative_operands hops hmark
    have hes' : es = pre ++ own ++ x :: post := by rw [hes]; simp
    obtain ⟨nodes, hnodes, hcompletes⟩ := ih he hemark pre (x :: post) hes' hbase
    obtain ⟨hpos, y, hy, hyo⟩ := hemitted.exists_root
    replace hy : es[base + own.length - 1]? = some y := by
      rw [Nat.add_sub_assoc hpos, ← hbase]
      exact getElem?_part hes' hy
    have hx : es[base + own.length]? = some x := by
      rw [← hbase]
      exact getElem?_part hes (by simp)
    obtain ⟨node, hnode, hcomputes⟩ := s.plans_unary (A := A) hx hroot hn hmark hops harity hy hyo
      (by omega)
    rw [List.length_append, List.length_singleton]
    exact ⟨nodes ++ [node], planned_append hnodes hnode,
      hcompletes.root (below_mono (by omega)) hcomputes⟩
  | @binary n l r base ls rs x hops harity hl hr hroot ihl ihr =>
    obtain ⟨hlwf, hrwf⟩ := wellFormed_operands hops hn
    obtain ⟨hlmark, hrmark⟩ := hasDerivative_operands hops hmark
    have hesl : es = pre ++ ls ++ (rs ++ x :: post) := by rw [hes]; simp
    have hesr : es = pre ++ ls ++ rs ++ x :: post := by rw [hes]; simp
    have hbase' : (pre ++ ls).length = base + ls.length := by rw [List.length_append, hbase]
    obtain ⟨left, hleft, hlcompletes⟩ := ihl hlwf hlmark pre (rs ++ x :: post) hesl hbase
    obtain ⟨right, hright, hrcompletes⟩ := ihr hrwf hrmark (pre ++ ls) (x :: post) hesr hbase'
    obtain ⟨hlpos, y, hy, hyo⟩ := hl.exists_root
    obtain ⟨hrpos, z, hz, hzo⟩ := hr.exists_root
    replace hy : es[base + ls.length - 1]? = some y := by
      rw [Nat.add_sub_assoc hlpos, ← hbase]
      exact getElem?_part hesl hy
    replace hz : es[base + (ls.length + rs.length) - 1]? = some z := by
      rw [← Nat.add_assoc, Nat.add_sub_assoc hrpos, ← hbase']
      exact getElem?_part hesr hz
    have hx : es[base + (ls.length + rs.length)]? = some x := by
      rw [← hbase]
      exact getElem?_part hes (by simp)
    obtain ⟨node, hnode, hcomputes⟩ := s.plans_binary (A := A) hx hroot hn hops harity hy hyo hz hzo
      (by omega)
    -- The left window ends where the windows of the right operand begin, so it is still there.
    have hends : below D es (base + ls.length - 1) + D ^ l.outer.length
        ≤ below D es (base + ls.length) := by
      rw [← hyo]
      exact window_before hy (by omega)
    rw [← Nat.add_assoc] at hcomputes
    have hplanned : List.Forall₂ (fun i node => Plan.node A t i = .ok node)
        (List.range' base (ls.length + rs.length)) (left ++ right) := by
      rw [← List.range'_append_1]
      exact List.rel_append hleft hright
    rw [List.length_append, List.length_append, List.length_singleton, ← Nat.add_assoc,
      Nat.add_sub_cancel, ← Nat.add_assoc]
    exact ⟨left ++ right ++ [node], planned_append hplanned hnode,
      (hlcompletes.append (below_mono (by omega)) hends hrcompletes).root (below_mono (by omega))
        hcomputes⟩

/-! ### Whole trees -/

/-- All constants that a tree refers to are there. -/
def Inputs.CoverTree (inputs : Inputs α) (t : Tree α) : Prop :=
  ∀ i < t.nodes, t.kind? i = some .constant → ∀ e ∈ t.ids.row i,
    0 ≤ e.toInt ∧ e.toInt < inputs.constants.size

/-- Constants that are there for a tree are there for its entries. -/
lemma Inputs.CoverTree.cover {inputs : Inputs α} (h : inputs.CoverTree t) (ht : t.Holds D es) :
    inputs.Cover es := by
  intro x hx hkind e he
  obtain ⟨i, hi, hget⟩ := List.mem_iff_getElem.1 hx
  have hentry : es[i]? = some x := by rw [List.getElem?_eq_getElem hi, hget]
  refine h i (by rw [ht.nodes]; exact hi) (by rw [ht.kind hentry, hkind]) e ?_
  rwa [ht.ids hentry]

/-- The plan computes the window of `n` in every lane, from any contents of storage. -/
structure Plan.Evaluates (A : Arith α) (D : Nat) (w : Lowering α) (t : Tree α) (n : Expr)
    (plan : Plan α) : Prop where
  rootSize : plan.rootSize = Int64.ofNat (D ^ n.outer.length)
  size_lt : D ^ n.outer.length < 2 ^ 31
  run : ∀ (W S : Nat) (inputs : Inputs α) (f : Frame α) (v : Nat → Nat → α),
    t.depth.toInt ≤ S → S < 2 ^ 63 → inputs.CoverTree t → f.Shows W S v →
    ∃ f' v', plan.run A inputs f = .ok f' ∧ f'.Shows W S v' ∧
      f'.window plan.root plan.rootSize = .ok () ∧
      ∀ q < D ^ n.outer.length, ∀ c < W, plan.result f' q c
        = .ok (n.window A D w (inputs.readRef w.catalog A.zero c) q)

/-- A flattened expression can be planned, and its plan computes its window. -/
theorem ofTree_evaluates (A : Arith α) (hflat : flatten w n = .ok t) (hdim : w.dim = Int64.ofNat D)
    (hD : D < 2 ^ 63) (hn : n.WellFormed) (hmark : n.hasDerivative = false)
    (htotal : t.totalWindow < 2 ^ 31) :
    ∃ plan, Plan.ofTree A t = .ok plan ∧ plan.Evaluates A D w t n := by
  obtain ⟨hvalid, hpos, hle, es, hemitted, hholds, hrank⟩ := flatten_holds hflat hdim hD
  rw [hholds.totalWindow_eq hD] at htotal
  have s : Site w t D es := ⟨hholds, hdim, hpos, hle, hrank, htotal⟩
  obtain ⟨nodes, hnodes, hcompletes⟩ := s.runs (A := A) hemitted hn hmark [] [] (by simp) rfl
  obtain ⟨hlen, x, hx, hxo⟩ := hemitted.exists_root
  rw [Nat.zero_add] at hcompletes
  have hroot : t.root = es.length - 1 := by rw [Tree.root, hholds.nodes]
  have hplans : (List.range t.nodes).mapM
      (fun i => Plan.atNode i (Plan.node A t i)) = .ok nodes := by
    rw [mapM_eq_ok_iff, hholds.nodes, List.range_eq_range']
    exact hnodes.imp fun i node h => by rw [h]; rfl
  have hlt := s.window_lt hx
  have hend := window_before hx (List.getElem?_eq_some_iff.1 hx).1 (D := D)
  rw [hxo] at hlt hend
  refine ⟨⟨t.dim, nodes, Int64.ofNat (below D es (es.length - 1)),
    Int64.ofNat (D ^ n.outer.length), t.depth.toInt64⟩, ?_, rfl, by omega, ?_⟩
  · rw [Plan.ofTree, hvalid, ok_bind, hplans, ok_bind, hroot, s.offset_eq hx, hholds.size hx, hxo,
      pure_eq_ok]
  · intro W S inputs f v hS hsmall hcover hf
    have hS' : below D es es.length ≤ S := by
      rw [hholds.depth, toInt32_ofNat_of_lt htotal] at hS
      omega
    obtain ⟨f', v', hrun, hf', -, hcomplete⟩ := hcompletes W S inputs f v hS' hsmall
      (hcover.cover hholds) hf
    refine ⟨f', v', hrun, hf', hf'.window (by omega) hsmall, fun q hq c hc => ?_⟩
    have hread : f'.read ((below D es (es.length - 1) : Nat) + (q : Int)) c
        = .ok (v' (below D es (es.length - 1) + q) c) :=
      hf'.read (by push_cast; rfl) (by omega) hc
    rw [Plan.result, Int64.toInt_ofNat_of_lt (by omega), Int64.toInt_ofNat_of_lt (by omega),
      if_neg (by omega), hread, hcomplete (n, _) (by simp) q hq c hc]

end Indicial
