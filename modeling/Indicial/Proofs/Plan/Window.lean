import Indicial.Proofs.Catalog
import Indicial.Proofs.Expr.Component
import Indicial.Proofs.Plan.IndexMap
import Indicial.Proofs.Plan.Step
import Indicial.Proofs.Tree.Flatten

/-!
# The window of an expression

`Expr.window` says what a plan computes, without storage: the number at each row-major position of
an expression's window, in any arithmetic. Contractions are `gather`s over the assignments of the
labels they run over, operands are read through `reindex`, and scalars through a function on
references.

The lemmas of this module plan one node at a time. A `Site` is a tree that holds the entries of an
expression within its limits; at a place of it whose entry is the root of an expression, `Plan.node`
succeeds, and what it plans is one of the steps whose effect on storage is known.
-/

namespace Indicial

open Odometer

variable {α : Type}

/-- The number at each position of an expression's window, when scalars are read by `read`. Marks for
derivatives are never planned. -/
def Expr.window (A : Arith α) (D : Nat) (w : Lowering α) (read : ScalarRef → α) :
    Expr → Nat → α
  | literal x _, _ => w.value x
  | scalar ref, q => gather A 1 (fun _ => 0) (fun _ => read ref) q
  | tensor symbol labels, q =>
    let inner := Index.unique labels
    gather A (D ^ inner.length) (reindex D inner (Index.exclusive labels))
      (fun k => read (.ofValues symbol
        (labels.map (Valuation.ofDigits inner (digits D inner.length k))) (w.constant symbol))) q
  | delta labels, q =>
    let inner := Index.unique labels
    gather A (D ^ inner.length) (reindex D inner (Index.exclusive labels))
      (fun k => A.ofInt (Plan.symbolValue .delta
        (labels.map (Valuation.ofDigits inner (digits D inner.length k))))) q
  | epsilon labels, q =>
    let inner := Index.unique labels
    gather A (D ^ inner.length) (reindex D inner (Index.exclusive labels))
      (fun k => A.ofInt (Plan.symbolValue .epsilon
        (labels.map (Valuation.ofDigits inner (digits D inner.length k))))) q
  | negate e, q => A.neg (window A D w read e q)
  | apply f e, _ => A.apply f (window A D w read e 0)
  | bind e target, q =>
    let inner := Index.unique target
    gather A (D ^ inner.length) (reindex D inner (Index.exclusive target))
      (fun k => window A D w read e (reindex D inner target k)) q
  | derivative _ _, _ => A.zero
  | sum l r, q =>
    A.add (window A D w read l q) (window A D w read r (reindex D l.outer r.outer q))
  | difference l r, q =>
    A.sub (window A D w read l q) (window A D w read r (reindex D l.outer r.outer q))
  | product l r, q =>
    let inner := Index.unique (l.outer ++ r.outer)
    gather A (D ^ inner.length)
      (reindex D inner (Index.symmetricDifference l.outer r.outer))
      (fun k => A.mul (window A D w read l (reindex D inner l.outer k))
        (window A D w read r (reindex D inner r.outer k))) q
  | ratio l r, q =>
    let inner := Index.unique (l.outer ++ r.outer)
    gather A (D ^ inner.length)
      (reindex D inner (Index.symmetricDifference l.outer r.outer))
      (fun k => A.div (window A D w read l (reindex D inner l.outer k))
        (window A D w read r (reindex D inner r.outer k))) q
  | power l r, _ => A.pow (window A D w read l 0) (window A D w read r 0)

/-- What a lane reads for a reference: its position in the catalog says where. -/
def Inputs.readRef (c : Catalog) (inputs : Inputs α) (default : α) (lane : Nat) (r : ScalarRef) : α :=
  let id := Int32.ofNat ((c.lookup? r).getD 0)
  if r.constant then (inputs.constants[id.toInt.toNat]?).getD default
  else inputs.field id.toInt64 (inputs.point + Int64.ofNat lane)

/-- A tree of entries within the limits: a small dimension, ranks that fit, and windows that together
stay below `2 ^ 31` slots. -/
structure Site (w : Lowering α) (t : Tree α) (D : Nat) (es : List (Tree.Entry α)) : Prop where
  holds : t.Holds D es
  dim : w.dim = Int64.ofNat D
  pos : 0 < D
  le : D ≤ 16
  rank : ∀ x ∈ es, x.outer.length ≤ Index.capacity
  small : Tree.below D es es.length < 2 ^ 31

namespace Site

open Indicial.Tree

variable {A : Arith α} {w : Lowering α} {t : Tree α} {D i j : Nat} {es : List (Entry α)}
  {x y z : Entry α}

/-- Every window ends below slot `2 ^ 31`. -/
lemma window_lt (s : Site w t D es) (hx : es[i]? = some x) :
    below D es i + D ^ x.outer.length < 2 ^ 31 :=
  Nat.lt_of_le_of_lt (window_before hx (List.getElem?_eq_some_iff.1 hx).1) s.small

/-- There are fewer than `2 ^ 31` entries. -/
lemma place_lt (s : Site w t D es) (hx : es[i]? = some x) : i < 2 ^ 31 := by
  have hi := (List.getElem?_eq_some_iff.1 hx).1
  have hle : es.length ≤ below D es es.length := length_le_below s.pos
  have := s.small
  omega

/-- The offset of an entry is the word of the slots before it. -/
lemma offset_eq (s : Site w t D es) (hx : es[i]? = some x) :
    (t.offset i).toInt64 = Int64.ofNat (below D es i) := by
  have := s.window_lt hx
  rw [s.holds.offset hx]
  exact toInt64_ofNat_of_lt (by omega)

/-- The plan of a node is its step, with its window. -/
lemma node_eq_ok (s : Site w t D es) (hx : es[i]? = some x) {p : Plan.Step α}
    (h : Plan.step A t i x.kind = .ok p) :
    Plan.node A t i
      = .ok ⟨x.kind, Int64.ofNat (below D es i), Int64.ofNat (D ^ x.outer.length), p⟩ := by
  unfold Plan.node
  rw [s.holds.kind hx]
  simp only
  rw [h, ok_bind, s.offset_eq hx, s.holds.size hx, pure_eq_ok]

/-- The operands of a binary node are its left entry and the one before it. -/
lemma children_binary (s : Site w t D es) (hx : es[i]? = some x) (hy : es[j]? = some y)
    (harity : x.kind.arity = .binary) (hleft : x.left = Int32.ofNat j) :
    t.children i = ((j : Int), (i : Int) - 1) := by
  rw [children, arity, s.holds.kind hx]
  simp only [harity]
  rw [s.holds.left hx, hleft, toInt32_ofNat_of_lt (s.place_lt hy)]

/-- The operand of a unary node is the entry before it. -/
lemma children_unary (s : Site w t D es) (hx : es[i]? = some x)
    (harity : x.kind.arity = .unary) : t.children i = ((i : Int) - 1, noChild) := by
  rw [children, arity, s.holds.kind hx]
  simp only [harity]

/-- An index map over the labels of a node. -/
lemma make_follows (s : Site w t D es) (inner target : Index) (hlen : D ^ target.length < 2 ^ 31)
    (hcap : target.length ≤ Index.capacity) (hmem : ∀ c ∈ target, c ∈ inner) :
    ∃ m, IndexMap.make inner target t.dim = .ok m ∧ m.Follows D inner target := by
  rw [s.holds.dim]
  have := s.le
  exact IndexMap.make_follows s.pos (by omega) (Nat.lt_of_le_of_lt hcap (by decide)) hlen hmem

end Site

/-! ### Planning and running one node -/

/-- All constants that the entries refer to are there. -/
def Inputs.Cover (inputs : Inputs α) (es : List (Tree.Entry α)) : Prop :=
  ∀ x ∈ es, x.kind = .constant → ∀ e ∈ x.ids, 0 ≤ e.toInt ∧ e.toInt < inputs.constants.size

/-- Every lane shows the windows of these expressions from these slots on. -/
def Complete (A : Arith α) (D : Nat) (w : Lowering α) (inputs : Inputs α) (W : Nat)
    (v : Nat → Nat → α) (operands : List (Expr × Nat)) : Prop :=
  ∀ p ∈ operands, ∀ q < D ^ p.1.outer.length, ∀ c < W,
    v (p.2 + q) c = p.1.window A D w (inputs.readRef w.catalog A.zero c) q

/-- Run where the windows of its operands are complete, the node completes the window of `n`, which
begins at slot `o`, and touches nothing else. -/
def Plan.Node.Computes (A : Arith α) (D : Nat) (w : Lowering α) (es : List (Tree.Entry α))
    (node : Plan.Node α) (n : Expr) (o : Nat) (operands : List (Expr × Nat)) : Prop :=
  ∀ {W S : Nat} {inputs : Inputs α} {f : Frame α} {v : Nat → Nat → α},
    Tree.below D es es.length ≤ S → S < 2 ^ 63 → inputs.Cover es → f.Shows W S v →
    Complete A D w inputs W v operands →
    ∃ f' g, node.run A inputs f = .ok f' ∧
      f'.Shows W S (overwrite v o (D ^ n.outer.length) g) ∧
      ∀ q < D ^ n.outer.length, ∀ c < W,
        g q c = n.window A D w (inputs.readRef w.catalog A.zero c) q

/-- What `Plan.node` gives at place `i`: the step of the root of `n`. -/
def Plan.Plans (A : Arith α) (D : Nat) (w : Lowering α) (t : Tree α) (es : List (Tree.Entry α))
    (i : Nat) (n : Expr) (operands : List (Expr × Nat)) : Prop :=
  ∃ node, Plan.node A t i = .ok node ∧
    node.Computes A D w es n (Tree.below D es i) operands

section Nodes

open Indicial.Tree Indicial.Expr

variable {A : Arith α} {w : Lowering α} {t : Tree α} {D i j : Nat} {es : List (Entry α)}
  {x y z : Entry α} {e l r : Expr} {left : Int32}

/-- The operands of a binary node, as its step finds them. -/
lemma Site.step_binary (s : Site w t D es) (hx : es[i]? = some x) (hy : es[j]? = some y)
    (hz : es[i - 1]? = some z) (hi : 0 < i) (harity : x.kind.arity = .binary)
    (hleft : x.left = Int32.ofNat j) :
    t.children i = ((j : Int), ((i - 1 : Nat) : Int)) ∧
      t.outer.row i = x.outer ∧ t.outer.row j = y.outer ∧ t.outer.row (i - 1) = z.outer ∧
      (t.offset j).toInt64 = Int64.ofNat (below D es j) ∧
      (t.offset (i - 1)).toInt64 = Int64.ofNat (below D es (i - 1)) := by
  refine ⟨?_, s.holds.outer hx, s.holds.outer hy, s.holds.outer hz, s.offset_eq hy, s.offset_eq hz⟩
  rw [s.children_binary hx hy harity hleft]
  congr 1
  omega

/-- The maps of a sum or difference. -/
lemma Site.step_elementwise (s : Site w t D es) (hx : es[i]? = some x) (hy : es[j]? = some y)
    (hz : es[i - 1]? = some z) (hi : 0 < i) (hkind : x.kind = .sum ∨ x.kind = .difference)
    (hleft : x.left = Int32.ofNat j) (hxy : x.outer = y.outer) (hperm : y.outer.Perm z.outer) :
    ∃ m, m.Follows D y.outer z.outer ∧
      Plan.step A t i x.kind = .ok (if x.kind = .sum
        then .add (Int64.ofNat (below D es j)) (Int64.ofNat (below D es (i - 1))) m
        else .subtract (Int64.ofNat (below D es j)) (Int64.ofNat (below D es (i - 1))) m) := by
  have harity : x.kind.arity = .binary := by rcases hkind with h | h <;> rw [h] <;> rfl
  obtain ⟨hchildren, hox, hoy, hoz, ha, hb⟩ := s.step_binary hx hy hz hi harity hleft
  have hlt := s.window_lt hz
  obtain ⟨m, hm, hfollows⟩ := s.make_follows y.outer z.outer (by omega)
    (s.rank z (List.mem_of_getElem? hz)) fun c hc => hperm.mem_iff.2 hc
  refine ⟨m, hfollows, ?_⟩
  unfold Plan.step
  rw [hchildren]
  rcases hkind with h | h
  · simp only [h, Int.toNat_natCast, hox, hoy, hoz, ha, hb, hxy, hm, ne_eq, not_true_eq_false,
      if_false, if_true]
    rfl
  · simp only [h, Int.toNat_natCast, hox, hoy, hoz, ha, hb, hxy, hm, ne_eq, not_true_eq_false,
      if_false]
    rfl

/-- Running a sum or difference whose operands are complete. -/
lemma Site.run_elementwise (s : Site w t D es) (hx : es[i]? = some x) (hy : es[j]? = some y)
    (hz : es[i - 1]? = some z) (hji : j < i) (hi : 0 < i) (hxo : x.outer = l.outer)
    (hyo : y.outer = l.outer) (hzo : z.outer = r.outer) (hperm : l.outer.Perm r.outer)
    {m : IndexMap} (hm : m.Follows D y.outer z.outer) (op : α → α → α)
    {W S : Nat} {inputs : Inputs α} {f : Frame α} {v : Nat → Nat → α}
    (hS : below D es es.length ≤ S) (hsmall : S < 2 ^ 63) (hf : f.Shows W S v)
    (hops : Complete A D w inputs W v [(l, below D es j), (r, below D es (i - 1))]) :
    ∃ f' g, Plan.runElementwise op (Int64.ofNat (below D es i)) (Int64.ofNat (D ^ x.outer.length))
        (Int64.ofNat (below D es j)) (Int64.ofNat (below D es (i - 1))) m f = .ok f' ∧
      f'.Shows W S (overwrite v (below D es i) (D ^ l.outer.length) g) ∧
      ∀ q < D ^ l.outer.length, ∀ c < W,
        g q c = op (l.window A D w (inputs.readRef w.catalog A.zero c) q)
          (r.window A D w (inputs.readRef w.catalog A.zero c) (reindex D l.outer r.outer q)) := by
  have hend := window_before hx (List.getElem?_eq_some_iff.1 hx).1 (D := D)
  have hleft := window_before hy hji (D := D)
  have hright := window_before hz (show i - 1 < i by omega) (D := D)
  have hlen : r.outer.length = l.outer.length := hperm.length_eq.symm
  rw [hxo] at hend ⊢
  rw [hyo] at hleft
  rw [hzo, hlen] at hright
  rw [hyo, hzo] at hm
  have hN : D ^ l.outer.length < 2 ^ 63 := by omega
  have hrounds : Plan.assignments [m] (Int64.ofNat (D ^ l.outer.length)) = D ^ l.outer.length := by
    apply IndexMap.assignments_eq hN (Nat.le_refl _) _ (.inl rfl)
    intro m' hm'
    obtain rfl : m' = m := by simpa using hm'
    rcases hm.length with h | h
    · exact .inl h
    · exact .inr h.1
  have hget : ∀ k < D ^ l.outer.length,
      m.get k = .ok (reindex D l.outer r.outer k : Nat) ∧
        reindex D l.outer r.outer k < D ^ l.outer.length := by
    intro k hk
    have hlt : reindex D l.outer r.outer k < D ^ r.outer.length := reindex_lt s.pos hk
    rw [hlen] at hlt
    exact ⟨hm.get k hk, hlt⟩
  obtain ⟨f', hrun, hf'⟩ := Plan.runElementwise_shows hf op hsmall (by omega) hleft (by omega) hrounds
    fun k hk => ⟨(hget k hk).1, Nat.lt_of_lt_of_le (Nat.add_lt_add_left (hget k hk).2 _) hright⟩
  refine ⟨f', _, hrun, hf', fun q hq c hc => ?_⟩
  rw [hops (l, below D es j) (by simp) q hq c hc,
    hops (r, below D es (i - 1)) (by simp) _ (by rw [hlen]; exact (hget q hq).2) c hc]

/-- A sum is planned to add the windows of its operands. -/
lemma Site.plans_sum (s : Site w t D es) (hx : es[i]? = some x)
    (hroot : rootEntry w (sum l r) (Int32.ofNat j) = .ok x) (hn : (sum l r).WellFormed)
    (hy : es[j]? = some y) (hyo : y.outer = l.outer) (hz : es[i - 1]? = some z)
    (hzo : z.outer = r.outer) (hji : j < i) :
    Plan.Plans A D w t es i (sum l r) [(l, below D es j), (r, below D es (i - 1))] := by
  cases hroot
  obtain ⟨m, hm, hstep⟩ := s.step_elementwise (A := A) hx hy hz (by omega) (.inl rfl) rfl hyo.symm
    (by rw [hyo, hzo]; exact hn.2.2)
  refine ⟨_, s.node_eq_ok hx hstep, ?_⟩
  intro W S inputs f v hS hsmall _ hf hops
  exact s.run_elementwise (l := l) hx hy hz hji (by omega) rfl hyo hzo hn.2.2 hm A.add hS hsmall hf hops

/-- A difference is planned to subtract the windows of its operands. -/
lemma Site.plans_difference (s : Site w t D es) (hx : es[i]? = some x)
    (hroot : rootEntry w (difference l r) (Int32.ofNat j) = .ok x)
    (hn : (difference l r).WellFormed) (hy : es[j]? = some y) (hyo : y.outer = l.outer)
    (hz : es[i - 1]? = some z) (hzo : z.outer = r.outer) (hji : j < i) :
    Plan.Plans A D w t es i (difference l r) [(l, below D es j), (r, below D es (i - 1))] := by
  cases hroot
  obtain ⟨m, hm, hstep⟩ := s.step_elementwise (A := A) hx hy hz (by omega) (.inr rfl) rfl hyo.symm
    (by rw [hyo, hzo]; exact hn.2.2)
  refine ⟨_, s.node_eq_ok hx hstep, ?_⟩
  intro W S inputs f v hS hsmall _ hf hops
  exact s.run_elementwise (l := l) hx hy hz hji (by omega) rfl hyo hzo hn.2.2 hm A.sub hS hsmall hf hops

/-- The labels that a product or ratio runs over, and its maps. -/
lemma Site.step_contraction (s : Site w t D es) (hx : es[i]? = some x) (hy : es[j]? = some y)
    (hz : es[i - 1]? = some z) (hi : 0 < i) (hkind : x.kind = .product ∨ x.kind = .ratio)
    (hleft : x.left = Int32.ofNat j)
    (hxo : x.outer = Index.symmetricDifference y.outer z.outer)
    (hcap : (y.outer ++ z.outer).length ≤ Index.capacity) :
    ∃ own left right, own.Follows D (Index.unique (y.outer ++ z.outer)) x.outer ∧
      left.Follows D (Index.unique (y.outer ++ z.outer)) y.outer ∧
      right.Follows D (Index.unique (y.outer ++ z.outer)) z.outer ∧
      Plan.step A t i x.kind = .ok (if x.kind = .product
        then .multiply (Int64.ofNat (below D es j)) (Int64.ofNat (below D es (i - 1))) own left right
        else .divide (Int64.ofNat (below D es j)) (Int64.ofNat (below D es (i - 1))) own left
          right) := by
  have harity : x.kind.arity = .binary := by rcases hkind with h | h <;> rw [h] <;> rfl
  obtain ⟨hchildren, hox, hoy, hoz, ha, hb⟩ := s.step_binary hx hy hz hi harity hleft
  have hltx := s.window_lt hx
  have hlty := s.window_lt hy
  have hltz := s.window_lt hz
  obtain ⟨own, hown, hownf⟩ := s.make_follows (Index.unique (y.outer ++ z.outer)) x.outer
    (by omega) (s.rank x (List.mem_of_getElem? hx)) (by
      intro c hc
      rw [hxo, Index.mem_symmetricDifference] at hc
      rw [Index.mem_unique, List.mem_append]
      tauto)
  obtain ⟨left, hl, hlf⟩ := s.make_follows (Index.unique (y.outer ++ z.outer)) y.outer
    (by omega) (s.rank y (List.mem_of_getElem? hy)) (by
      intro c hc
      simp [Index.mem_unique, hc])
  obtain ⟨right, hr, hrf⟩ := s.make_follows (Index.unique (y.outer ++ z.outer)) z.outer
    (by omega) (s.rank z (List.mem_of_getElem? hz)) (by
      intro c hc
      simp [Index.mem_unique, hc])
  refine ⟨own, left, right, hownf, hlf, hrf, ?_⟩
  have hconcat := Index.concat_eq_ok hcap
  unfold Plan.step
  rw [hchildren]
  rcases hkind with h | h
  · simp only [h, Int.toNat_natCast, hox, hoy, hoz, ha, hb, hconcat, hown, hl, hr, liftM_ok,
      ok_bind, pure_eq_ok]
  · simp only [h, Int.toNat_natCast, hox, hoy, hoz, ha, hb, hconcat, hown, hl, hr, liftM_ok,
      ok_bind, pure_eq_ok]

/-- Running a product or ratio whose operands are complete. -/
lemma Site.run_contraction (s : Site w t D es) (hx : es[i]? = some x) (hy : es[j]? = some y)
    (hz : es[i - 1]? = some z) (hji : j < i) (hi : 0 < i)
    (hxo : x.outer = Index.symmetricDifference l.outer r.outer) (hyo : y.outer = l.outer)
    (hzo : z.outer = r.outer) (hl : l.outer.Nodup) (hr : r.outer.Nodup)
    {own left right : IndexMap} (hown : own.Follows D (Index.unique (y.outer ++ z.outer)) x.outer)
    (hleft : left.Follows D (Index.unique (y.outer ++ z.outer)) y.outer)
    (hright : right.Follows D (Index.unique (y.outer ++ z.outer)) z.outer) (op : α → α → α)
    {W S : Nat} {inputs : Inputs α} {f : Frame α} {v : Nat → Nat → α}
    (hS : below D es es.length ≤ S) (hsmall : S < 2 ^ 63) (hf : f.Shows W S v)
    (hops : Complete A D w inputs W v [(l, below D es j), (r, below D es (i - 1))]) :
    ∃ f' g, Plan.runContraction A op (Int64.ofNat (below D es i))
        (Int64.ofNat (D ^ x.outer.length)) (Int64.ofNat (below D es j))
        (Int64.ofNat (below D es (i - 1))) own left right f = .ok f' ∧
      f'.Shows W S (overwrite v (below D es i)
        (D ^ (Index.symmetricDifference l.outer r.outer).length) g) ∧
      ∀ q < D ^ (Index.symmetricDifference l.outer r.outer).length, ∀ c < W,
        g q c = gather A (D ^ (Index.unique (l.outer ++ r.outer)).length)
          (reindex D (Index.unique (l.outer ++ r.outer))
            (Index.symmetricDifference l.outer r.outer))
          (fun k => op
            (l.window A D w (inputs.readRef w.catalog A.zero c)
              (reindex D (Index.unique (l.outer ++ r.outer)) l.outer k))
            (r.window A D w (inputs.readRef w.catalog A.zero c)
              (reindex D (Index.unique (l.outer ++ r.outer)) r.outer k))) q := by
  have hend := window_before hx (List.getElem?_eq_some_iff.1 hx).1 (D := D)
  have hlend := window_before hy hji (D := D)
  have hrend := window_before hz (show i - 1 < i by omega) (D := D)
  rw [hxo] at hend hown ⊢
  rw [hyo] at hlend hown hleft hright
  rw [hzo] at hrend hown hleft hright
  generalize hinner : Index.unique (l.outer ++ r.outer) = inner at *
  generalize hN : D ^ inner.length = N at *
  have hlen : (Index.symmetricDifference l.outer r.outer).length ≤ inner.length := by
    rw [← hinner, (Index.unique_append_perm hl hr).length_eq, List.length_append]
    omega
  -- Maps that are the identity are stored as nothing; the longest of the others and the window of
  -- the node give the number of rounds.
  have hrounds : Plan.assignments [own, left, right]
      (Int64.ofNat (D ^ (Index.symmetricDifference l.outer r.outer).length)) = N := by
    rw [← hN]
    apply hown.assignments (by omega) (Nat.pow_le_pow_right s.pos hlen)
    intro m hm
    rcases List.mem_cons.1 hm with rfl | hm
    · exact ⟨_, hleft⟩
    · obtain rfl : m = right := by simpa using hm
      exact ⟨_, hright⟩
  have hgetl : ∀ k < N, reindex D inner l.outer k < D ^ l.outer.length := by
    intro k hk
    exact reindex_lt s.pos (hN ▸ hk)
  have hgetr : ∀ k < N, reindex D inner r.outer k < D ^ r.outer.length := by
    intro k hk
    exact reindex_lt s.pos (hN ▸ hk)
  obtain ⟨f', hrun, hf'⟩ := Plan.runContraction_shows (A := A) hf op hsmall
    (show below D es i + D ^ (Index.symmetricDifference l.outer r.outer).length ≤ S by omega)
    (show below D es j < 2 ^ 63 by omega) (show below D es (i - 1) < 2 ^ 63 by omega) hrounds
    (fun k hk => ⟨hown.get k (hN ▸ hk), reindex_lt s.pos (hN ▸ hk)⟩)
    (fun k hk => ⟨hleft.get k (hN ▸ hk), by have := hgetl k hk; omega⟩)
    (fun k hk => ⟨hright.get k (hN ▸ hk), by have := hgetr k hk; omega⟩)
  refine ⟨f', _, hrun, hf', fun q hq c hc => ?_⟩
  apply gather_congr (fun _ _ => rfl)
  intro k hk
  rw [hops (l, below D es j) (by simp) _ (hgetl k hk) c hc,
    hops (r, below D es (i - 1)) (by simp) _ (hgetr k hk) c hc]

/-- The inner labels of a product are those of both factors, each once. -/
lemma inner_product_eq_ok {inner : Index} (h : (product l r).inner = .ok inner) :
    inner = Index.unique (l.outer ++ r.outer) ∧ (l.outer ++ r.outer).length ≤ Index.capacity := by
  obtain ⟨all, hall, rfl⟩ := map_eq_ok_iff.1 h
  obtain ⟨rfl, hle⟩ := Index.concat_eq_ok_iff.1 hall
  exact ⟨rfl, hle⟩

/-- A product is planned to contract the windows of its factors. -/
lemma Site.plans_product (s : Site w t D es) (hx : es[i]? = some x)
    (hroot : rootEntry w (product l r) (Int32.ofNat j) = .ok x) (hn : (product l r).WellFormed)
    (hy : es[j]? = some y) (hyo : y.outer = l.outer) (hz : es[i - 1]? = some z)
    (hzo : z.outer = r.outer) (hji : j < i) :
    Plan.Plans A D w t es i (product l r) [(l, below D es j), (r, below D es (i - 1))] := by
  obtain ⟨slot, hslot, hroot⟩ := bind_eq_ok_iff.1 hroot
  obtain ⟨inner, hinner, hroot⟩ := bind_eq_ok_iff.1 hroot
  cases hslot
  cases hroot
  obtain ⟨-, hcap⟩ := inner_product_eq_ok hinner
  obtain ⟨own, left, right, hown, hl, hr, hstep⟩ := s.step_contraction (A := A) hx hy hz (by omega)
    (.inl rfl) rfl (by rw [hyo, hzo]; rfl) (by rw [hyo, hzo]; exact hcap)
  refine ⟨_, s.node_eq_ok hx hstep, ?_⟩
  intro W S inputs f v hS hsmall _ hf hops
  exact s.run_contraction hx hy hz hji (by omega) rfl hyo hzo hn.1.nodup_outer hn.2.1.nodup_outer
    hown hl hr A.mul hS hsmall hf hops

/-- A ratio is planned to contract the windows of its operands. -/
lemma Site.plans_ratio (s : Site w t D es) (hx : es[i]? = some x)
    (hroot : rootEntry w (ratio l r) (Int32.ofNat j) = .ok x) (hn : (ratio l r).WellFormed)
    (hy : es[j]? = some y) (hyo : y.outer = l.outer) (hz : es[i - 1]? = some z)
    (hzo : z.outer = r.outer) (hji : j < i) :
    Plan.Plans A D w t es i (ratio l r) [(l, below D es j), (r, below D es (i - 1))] := by
  obtain ⟨slot, hslot, hroot⟩ := bind_eq_ok_iff.1 hroot
  obtain ⟨inner, hinner, hroot⟩ := bind_eq_ok_iff.1 hroot
  have hcap := (inner_product_eq_ok hinner).2
  have hrank : (if r.rank = 0 then .ok (plainSlot w .ratio)
      else .error (Fault.ratioDenominator r.toBytes r.rank)) = Except.ok slot := hslot
  obtain rfl : plainSlot w .ratio = slot := by
    split at hrank
    · exact Except.ok.inj hrank
    · cases hrank
  cases hroot
  obtain ⟨own, left, right, hown, hl, hr, hstep⟩ := s.step_contraction (A := A) hx hy hz (by omega)
    (.inr rfl) rfl (by rw [hyo, hzo]; rfl) (by rw [hyo, hzo]; exact hcap)
  refine ⟨_, s.node_eq_ok hx hstep, ?_⟩
  intro W S inputs f v hS hsmall _ hf hops
  exact s.run_contraction hx hy hz hji (by omega) rfl hyo hzo hn.1.nodup_outer hn.2.1.nodup_outer
    hown hl hr A.div hS hsmall hf hops

/-- A power is planned to raise one slot to the other. -/
lemma Site.plans_power (s : Site w t D es) (hx : es[i]? = some x)
    (hroot : rootEntry w (power l r) (Int32.ofNat j) = .ok x) (hn : (power l r).WellFormed)
    (hy : es[j]? = some y) (hyo : y.outer = l.outer) (hz : es[i - 1]? = some z)
    (hzo : z.outer = r.outer) (hji : j < i) :
    Plan.Plans A D w t es i (power l r) [(l, below D es j), (r, below D es (i - 1))] := by
  cases hroot
  obtain ⟨hchildren, -, -, -, ha, hb⟩ := s.step_binary hx hy hz (by omega) rfl rfl
  have hone : t.size i = 1 := s.holds.size hx
  have hstep : Plan.step A t i .power
      = .ok (.power (Int64.ofNat (below D es j)) (Int64.ofNat (below D es (i - 1)))) := by
    unfold Plan.step
    rw [hchildren]
    simp only [Int.toNat_natCast, ha, hb, hone, ne_eq, not_true_eq_false, if_false, pure_eq_ok]
  have hleft := window_before hy hji (D := D)
  have hright := window_before hz (show i - 1 < i by omega) (D := D)
  have hend := window_before hx (List.getElem?_eq_some_iff.1 hx).1 (D := D)
  rw [hyo, hn.2.2.1, List.length_nil, pow_zero] at hleft
  rw [hzo, hn.2.2.2, List.length_nil, pow_zero] at hright
  have hend' : below D es i + 1 ≤ below D es es.length := hend
  refine ⟨_, s.node_eq_ok hx hstep, ?_⟩
  intro W S inputs f v hS hsmall _ hf hops
  obtain ⟨f', hrun, hf'⟩ := Plan.run_power_shows (A := A) inputs .power hf hsmall
    (show below D es i + 1 ≤ S by omega) hleft hright
  refine ⟨f', _, hrun, hf', fun q _ c hc => ?_⟩
  have hl := hops (l, below D es j) (by simp) 0 (by simp [hn.2.2.1]) c hc
  have hr := hops (r, below D es (i - 1)) (by simp) 0 (by simp [hn.2.2.2]) c hc
  simp only [Nat.add_zero] at hl hr
  rw [hl, hr, window]

/-! ### Unary nodes -/

/-- The operand of a unary node, as its step finds it. -/
lemma Site.step_unary (s : Site w t D es) (hx : es[i]? = some x) (hy : es[i - 1]? = some y)
    (hi : 0 < i) (harity : x.kind.arity = .unary) :
    t.children i = (((i - 1 : Nat) : Int), noChild) ∧
      t.outer.row i = x.outer ∧ t.outer.row (i - 1) = y.outer ∧
      (t.offset (i - 1)).toInt64 = Int64.ofNat (below D es (i - 1)) := by
  refine ⟨?_, s.holds.outer hx, s.holds.outer hy, s.offset_eq hy⟩
  rw [s.children_unary hx harity]
  congr 1
  omega

/-- A negation is planned to negate the window of its operand. -/
lemma Site.plans_negate (s : Site w t D es) (hx : es[i]? = some x)
    (hroot : rootEntry w (negate e) left = .ok x) (hy : es[i - 1]? = some y)
    (hyo : y.outer = e.outer) (hi : 0 < i) :
    Plan.Plans A D w t es i (negate e) [(e, below D es (i - 1))] := by
  cases hroot
  obtain ⟨hchildren, -, -, ha⟩ := s.step_unary hx hy hi rfl
  have hsize : t.size (i - 1) = t.size i := by
    rw [s.holds.size hy, s.holds.size hx, hyo]
    rfl
  have hstep : Plan.step A t i .negate = .ok (.negate (Int64.ofNat (below D es (i - 1)))) := by
    unfold Plan.step
    rw [hchildren]
    simp only [Int.toNat_natCast, ha, hsize, ne_eq, not_true_eq_false, if_false, pure_eq_ok]
  have hleft := window_before hy (show i - 1 < i by omega) (D := D)
  have hend := window_before hx (List.getElem?_eq_some_iff.1 hx).1 (D := D)
  rw [hyo] at hleft
  refine ⟨_, s.node_eq_ok hx hstep, ?_⟩
  intro W S inputs f v hS hsmall _ hf hops
  obtain ⟨f', hrun, hf'⟩ := Plan.run_negate_shows (A := A) inputs .negate hf
    hsmall (Nat.le_trans hend hS) hleft
  refine ⟨f', _, hrun, hf', fun q hq c hc => ?_⟩
  rw [hops (e, below D es (i - 1)) (by simp) q hq c hc, window]

/-- A function is planned to be applied to the slot of its argument. -/
lemma Site.plans_apply (s : Site w t D es) {func : Func} (hx : es[i]? = some x)
    (hroot : rootEntry w (apply func e) left = .ok x) (hn : (apply func e).WellFormed)
    (hy : es[i - 1]? = some y) (hyo : y.outer = e.outer) (hi : 0 < i) :
    Plan.Plans A D w t es i (apply func e) [(e, below D es (i - 1))] := by
  cases hroot
  obtain ⟨hchildren, -, -, ha⟩ := s.step_unary hx hy hi rfl
  have hone : t.size i = 1 := s.holds.size hx
  have hfunc : t.funcs.getD i 0 = func.code := s.holds.func hx
  have hstep : Plan.step A t i .function
      = .ok (.apply func.code (Int64.ofNat (below D es (i - 1)))) := by
    unfold Plan.step
    rw [hchildren]
    simp only [Int.toNat_natCast, ha, hone, hfunc, ne_eq, not_true_eq_false, if_false, pure_eq_ok]
  have hleft := window_before hy (show i - 1 < i by omega) (D := D)
  have hend : below D es i + 1 ≤ below D es es.length :=
    window_before hx (List.getElem?_eq_some_iff.1 hx).1 (D := D)
  rw [hyo, hn.2, List.length_nil, pow_zero] at hleft
  refine ⟨_, s.node_eq_ok hx hstep, ?_⟩
  intro W S inputs f v hS hsmall _ hf hops
  obtain ⟨f', hrun, hf'⟩ := Plan.run_apply_shows (A := A) inputs .function hf
    func hsmall (Nat.le_trans hend hS) hleft
  refine ⟨f', _, hrun, hf', fun q _ c hc => ?_⟩
  have he := hops (e, below D es (i - 1)) (by simp) 0 (by simp [hn.2]) c hc
  simp only [Nat.add_zero] at he
  rw [he, window]

/-- There are no more exclusive labels than different ones. -/
lemma length_exclusive_le_unique (labels : Index) :
    (Index.exclusive labels).length ≤ (Index.unique labels).length := by
  rw [(Index.unique_perm labels).length_eq, List.length_append]
  omega

/-- Exclusive labels are among the different ones. -/
lemma mem_unique_of_mem_exclusive {labels : Index} {c : Label} (h : c ∈ Index.exclusive labels) :
    c ∈ Index.unique labels := Index.mem_unique.2 (Index.mem_of_mem_exclusive h)

/-- A binding is planned to relabel the window of its operand. -/
lemma Site.plans_bind (s : Site w t D es) {target : Index} (hx : es[i]? = some x)
    (hroot : rootEntry w (bind e target) left = .ok x) (hn : (bind e target).WellFormed)
    (hy : es[i - 1]? = some y) (hyo : y.outer = e.outer) (hi : 0 < i) :
    Plan.Plans A D w t es i (bind e target) [(e, below D es (i - 1))] := by
  cases hroot
  obtain ⟨hchildren, hox, hoy, ha⟩ := s.step_unary hx hy hi rfl
  have hbinding : t.binding.row i = target := s.holds.binding hx
  have hltx := s.window_lt hx
  have hlty := s.window_lt hy
  have hleft := window_before hy (show i - 1 < i by omega) (D := D)
  have hend := window_before hx (List.getElem?_eq_some_iff.1 hx).1 (D := D)
  rw [hyo, ← hn.2] at hleft hlty
  have hcap : target.length ≤ Index.capacity := by
    rw [hn.2]
    exact hn.1.length_outer_le
  -- Two maps from the assignments of the distinct labels: to the free ones, where the value goes,
  -- and to all of them, where the operand has it.
  obtain ⟨own, hown, hownf⟩ := s.make_follows (Index.unique target) (Index.exclusive target)
    (show D ^ (Index.exclusive target).length < 2 ^ 31 by
      have : below D es i + D ^ (Index.exclusive target).length < 2 ^ 31 := hltx
      omega)
    (Nat.le_trans (Index.length_exclusive_le target) hcap) fun c => mem_unique_of_mem_exclusive
  obtain ⟨lm, hlm, hlmf⟩ := s.make_follows (Index.unique target) target (by omega) hcap fun c hc =>
    Index.mem_unique.2 hc
  have hstep : Plan.step A t i .bind = .ok (.relabel (Int64.ofNat (below D es (i - 1))) own lm) := by
    have hox' : t.outer.row i = Index.exclusive target := hox
    unfold Plan.step
    rw [hchildren]
    simp only [Int.toNat_natCast, ha, hox', hoy, hyo, hbinding, hn.2, hown, hlm, ne_eq,
      not_true_eq_false, if_false, liftM_ok, ok_bind, pure_eq_ok]
  refine ⟨_, s.node_eq_ok hx hstep, ?_⟩
  intro W S inputs f v hS hsmall _ hf hops
  have hend' : below D es i + D ^ (Index.exclusive target).length ≤ below D es es.length := hend
  have hrounds : Plan.assignments [own, lm] (Int64.ofNat (D ^ (Index.exclusive target).length))
      = D ^ (Index.unique target).length := by
    apply hownf.assignments (by omega)
      (Nat.pow_le_pow_right s.pos (length_exclusive_le_unique target))
    intro m hm
    obtain rfl : m = lm := by simpa using hm
    exact ⟨_, hlmf⟩
  have hget : ∀ k < D ^ (Index.unique target).length,
      reindex D (Index.unique target) target k < D ^ target.length := fun k hk =>
    reindex_lt s.pos hk
  obtain ⟨f', hrun, hf'⟩ := Plan.runRelabel_shows (A := A) hf hsmall
    (show below D es i + D ^ (Index.exclusive target).length ≤ S by omega)
    (show below D es (i - 1) < 2 ^ 63 by omega) hrounds
    (fun k hk => ⟨hownf.get k hk, reindex_lt s.pos hk⟩)
    (fun k hk => ⟨hlmf.get k hk, by have := hget k hk; omega⟩)
  refine ⟨f', _, hrun, hf', fun q _ c hc => ?_⟩
  rw [window]
  apply gather_congr (fun _ _ => rfl)
  intro k hk
  exact hops (e, below D es (i - 1)) (by simp) _ (by rw [← hn.2]; exact hget k hk) c hc

/-! ### Leaves -/

/-- A literal is planned to fill its window. -/
lemma Site.plans_literal (s : Site w t D es) {value : Literal} {labels : Index}
    (hx : es[i]? = some x) (hroot : rootEntry w (literal value labels) left = .ok x) :
    Plan.Plans A D w t es i (literal value labels) [] := by
  cases hroot
  have hend : below D es i + D ^ labels.length ≤ below D es es.length :=
    window_before hx (List.getElem?_eq_some_iff.1 hx).1 (D := D)
  have hlt : below D es i + D ^ labels.length < 2 ^ 31 := s.window_lt hx
  have hsize : (t.size i).toInt.toNat = D ^ labels.length := by
    rw [s.holds.size hx]
    exact toNat_toInt_ofNat (show D ^ labels.length < 2 ^ 63 by omega)
  have hvalue : t.values.getD i A.zero = w.value value := s.holds.value A.zero hx
  have hstep : Plan.step A t i .literal
      = .ok (.fill (Array.replicate (D ^ labels.length) (w.value value))) := by
    unfold Plan.step
    simp only [hsize, hvalue, pure_eq_ok]
  refine ⟨_, s.node_eq_ok hx hstep, ?_⟩
  intro W S inputs f v hS hsmall _ hf _
  obtain ⟨f', hrun, hf'⟩ := Plan.run_fill_shows (A := A) inputs .literal hf
    (x := fun _ => w.value value) hsmall (Nat.le_trans hend hS) Array.size_replicate
    fun k hk => by rw [Array.getElem?_replicate, if_pos hk]
  exact ⟨f', _, hrun, hf', fun q _ c _ => by rw [window]⟩

/-- The tabulated window of a symbol. -/
lemma symbolPattern_eq_ok (hD : 0 < D) (hD' : D ≤ 16) (kind : Kind) {binding : Index}
    (hcap : binding.length ≤ Index.capacity)
    (hsmall : D ^ (Index.exclusive binding).length < 2 ^ 31) :
    ∃ values : Array α,
      Plan.symbolPattern A kind binding (Index.exclusive binding) (Int64.ofNat D) = .ok values ∧
      values.size = D ^ (Index.exclusive binding).length ∧
      ∀ q < D ^ (Index.exclusive binding).length, values[q]? = some
        (gather A (D ^ (Index.unique binding).length)
          (reindex D (Index.unique binding) (Index.exclusive binding))
          (fun k => A.ofInt (Plan.symbolValue kind (binding.map
            (Valuation.ofDigits (Index.unique binding)
              (digits D (Index.unique binding).length k))))) q) := by
  have hcap' := Nat.le_trans (Index.length_exclusive_le binding) hcap
  obtain ⟨own, hown, hownf⟩ := IndexMap.make_follows hD (show D < 2 ^ 63 by omega)
    (Nat.lt_of_le_of_lt hcap' (by decide)) hsmall
    fun c (hc : c ∈ Index.exclusive binding) => mem_unique_of_mem_exclusive hc
  have hpower : (Layout.power (Int64.ofNat D)
      (Int64.ofNat (Index.exclusive binding).length)).toInt.toNat
      = D ^ (Index.exclusive binding).length := by
    rw [Layout.power_ofNat D (Nat.lt_of_le_of_lt hcap' (by decide))]
    exact toNat_toInt_ofNat (by omega)
  unfold Plan.symbolPattern
  simp only [hown, ok_bind, run_ofNat hD (show D < 2 ^ 63 by omega), hpower]
  rw [← length_visits hD (Index.unique binding).length]
  -- After `k` assignments the pattern holds the sums over the first `k` of them.
  apply foldlM_zipIdx_ok
    (P := fun k (values : Array α) => values.size = D ^ (Index.exclusive binding).length ∧
      ∀ q < D ^ (Index.exclusive binding).length, values[q]? = some
        (gather A k (reindex D (Index.unique binding) (Index.exclusive binding))
          (fun k => A.ofInt (Plan.symbolValue kind (binding.map
            (Valuation.ofDigits (Index.unique binding)
              (digits D (Index.unique binding).length k))))) q))
  · refine ⟨Array.size_replicate, fun q hq => ?_⟩
    rw [Array.getElem?_replicate, if_pos hq]
    rfl
  · rintro k ds hds values ⟨hsize, hvalues⟩
    have hk : k < D ^ (Index.unique binding).length := by
      rw [← length_visits hD]
      exact (List.getElem?_eq_some_iff.1 hds).1
    obtain rfl : digits D (Index.unique binding).length k = ds := by
      rw [getElem?_visits hD hk] at hds
      exact Option.some.inj hds
    simp only [hownf.get k hk, ok_bind, pure_eq_ok, Int.toNat_natCast]
    refine ⟨_, rfl, by simpa using hsize, fun q hq => ?_⟩
    rw [Array.getElem?_modify, hvalues q hq, gather_succ]
    by_cases hown : reindex D (Index.unique binding) (Index.exclusive binding) k = q
    · rw [if_pos hown, if_pos hown]
      rfl
    · rw [if_neg hown, if_neg hown]

/-- A Kronecker symbol is planned to fill its window with its pattern. -/
lemma Site.plans_delta (s : Site w t D es) {labels : Index} (hx : es[i]? = some x)
    (hroot : rootEntry w (delta labels) left = .ok x) (hn : (delta labels).WellFormed) :
    Plan.Plans A D w t es i (delta labels) [] := by
  cases hroot
  have hlen : labels.length = 2 := hn
  have hlt : below D es i + D ^ (Index.exclusive labels).length < 2 ^ 31 := s.window_lt hx
  obtain ⟨values, hpattern, hsize, hvalues⟩ := symbolPattern_eq_ok (A := A) s.pos s.le .delta
    (show labels.length ≤ Index.capacity by rw [hlen]; decide) (by omega)
  have hstep : Plan.step A t i .delta = .ok (.fill values) := by
    have hox : t.outer.row i = Index.exclusive labels := s.holds.outer hx
    have hbinding : t.binding.row i = labels := s.holds.binding hx
    unfold Plan.step
    simp only [hox, hbinding, s.holds.dim, hlen, hpattern, ne_eq, not_true_eq_false, if_false,
      liftM_ok, ok_bind, pure_eq_ok]
  refine ⟨_, s.node_eq_ok hx hstep, ?_⟩
  intro W S inputs f v hS hsmall _ hf _
  have hend : below D es i + D ^ (Index.exclusive labels).length ≤ below D es es.length :=
    window_before hx (List.getElem?_eq_some_iff.1 hx).1 (D := D)
  obtain ⟨f', hrun, hf'⟩ := Plan.run_fill_shows (A := A) inputs .delta hf hsmall
    (Nat.le_trans hend hS) hsize hvalues
  exact ⟨f', _, hrun, hf', fun q _ c _ => by rw [window]⟩

/-- A Levi-Civita symbol is planned to fill its window with its pattern. -/
lemma Site.plans_epsilon (s : Site w t D es) {labels : Index} (hx : es[i]? = some x)
    (hroot : rootEntry w (epsilon labels) left = .ok x) (hn : (epsilon labels).WellFormed) :
    Plan.Plans A D w t es i (epsilon labels) [] := by
  obtain ⟨slot, hslot, hroot⟩ := bind_eq_ok_iff.1 hroot
  have hcheck : (if (labels.length : Int) = w.dim.toInt
      then .ok { plainSlot w .epsilon with binding := labels }
      else .error (Fault.epsilonFlattened labels w.dim.toInt)) = Except.ok slot := hslot
  have hD := s.le
  obtain ⟨hlen, rfl⟩ : (labels.length : Int) = w.dim.toInt ∧
      { plainSlot w .epsilon with binding := labels } = slot := by
    split at hcheck
    · exact ⟨by assumption, Except.ok.inj hcheck⟩
    · cases hcheck
  cases hroot
  have hlt : below D es i + D ^ (Index.exclusive labels).length < 2 ^ 31 := s.window_lt hx
  obtain ⟨values, hpattern, hsize, hvalues⟩ := symbolPattern_eq_ok (A := A) s.pos s.le .epsilon hn.2
    (show D ^ (Index.exclusive labels).length < 2 ^ 31 by omega)
  have hstep : Plan.step A t i .epsilon = .ok (.fill values) := by
    have hox : t.outer.row i = Index.exclusive labels := s.holds.outer hx
    have hbinding : t.binding.row i = labels := s.holds.binding hx
    have hdim : (labels.length : Int) = (Int64.ofNat D).toInt := by rw [hlen, s.dim]
    unfold Plan.step
    simp only [hox, hbinding, s.holds.dim, hdim, hpattern, ne_eq, not_true_eq_false, if_false,
      liftM_ok, ok_bind, pure_eq_ok]
  refine ⟨_, s.node_eq_ok hx hstep, ?_⟩
  intro W S inputs f v hS hsmall _ hf _
  have hend : below D es i + D ^ (Index.exclusive labels).length ≤ below D es es.length :=
    window_before hx (List.getElem?_eq_some_iff.1 hx).1 (D := D)
  obtain ⟨f', hrun, hf'⟩ := Plan.run_fill_shows (A := A) inputs .epsilon hf hsmall
    (Nat.le_trans hend hS) hsize hvalues
  exact ⟨f', _, hrun, hf', fun q _ c _ => by rw [window]⟩

section Reading

variable {c : Catalog} {inputs : Inputs α} {ref : ScalarRef} {k : Nat}

/-- What a lane reads through an id of the catalog. -/
lemma readRef_of_id (h : c.id ref = .ok k) (default : α) (lane : Nat) :
    inputs.readRef c default lane ref
      = if ref.constant then (inputs.constants[(Int32.ofNat k).toInt.toNat]?).getD default
        else inputs.field (Int32.ofNat k).toInt64 (inputs.point + Int64.ofNat lane) := by
  rw [Inputs.readRef, Catalog.id_eq_ok_iff.1 h, Option.getD_some]

/-- A constant is read at its position in the catalog, as long as words can number its table and there
is a number for each entry. -/
lemma getElem?_eq_readRef (h : c.id ref = .ok k) (hconstant : ref.constant = true)
    (hsmall : (c.tableOf ref).length ≤ 2 ^ 31) (hsize : c.constants.length ≤ inputs.constants.size)
    (default : α) (lane : Nat) :
    inputs.constants[k]? = some (inputs.readRef c default lane ref) := by
  have hk := Catalog.lt_of_lookup? (Catalog.id_eq_ok_iff.1 h)
  have htable : c.tableOf ref = c.constants := by rw [Catalog.tableOf, if_pos hconstant]
  have hlt : k < inputs.constants.size := by
    rw [htable] at hk
    omega
  rw [readRef_of_id h, if_pos hconstant, toInt32_ofNat_of_lt (by omega), Int.toNat_natCast,
    Array.getElem?_eq_getElem hlt, Option.getD_some]

/-- Another scalar is read by its position in the catalog, as long as words can number its table, at the
point of the lane. -/
lemma readRef_eq_field (h : c.id ref = .ok k) (hscalar : ref.constant = false)
    (hsmall : (c.tableOf ref).length ≤ 2 ^ 31) (default : α) (lane : Nat) :
    inputs.readRef c default lane ref
      = inputs.field (Int64.ofNat k) (inputs.point + Int64.ofNat lane) := by
  have hk := Catalog.lt_of_lookup? (Catalog.id_eq_ok_iff.1 h)
  rw [readRef_of_id h, hscalar, toInt64_ofNat_of_lt (by omega)]
  rfl

end Reading

/-- A leaf that reads one reference for each assignment of its distinct labels. -/
lemma Site.plans_reading (s : Site w t D es) {n : Expr} {constant : Bool} {labels : Index}
    {ref : Nat → ScalarRef} {ks : List Nat} (hx : es[i]? = some x)
    (hkind : x.kind = scalarKind constant) (hbinding : x.binding = labels)
    (hids : x.ids = ks.map Int32.ofNat) (hxo : x.outer = Index.exclusive labels)
    (hno : n.outer = Index.exclusive labels) (hcap : labels.length ≤ Index.capacity)
    (hks : ((List.range (D ^ (Index.unique labels).length)).map ref).mapM w.catalog.id = .ok ks)
    (hconstant : ∀ k, (ref k).constant = constant)
    (hwindow : ∀ read q, n.window A D w read q
      = gather A (D ^ (Index.unique labels).length)
        (reindex D (Index.unique labels) (Index.exclusive labels)) (fun k => read (ref k)) q) :
    Plan.Plans A D w t es i n [] := by
  have hD := s.le
  have hlt := s.window_lt hx
  rw [hxo] at hlt
  have hforall := mapM_eq_ok_iff.1 hks
  have hlen : ks.length = D ^ (Index.unique labels).length := by
    rw [← hforall.length_eq]
    simp
  have hunique : (Index.unique labels).length ≤ 8 := Nat.le_trans (Index.length_unique_le labels) hcap
  have hN : D ^ (Index.unique labels).length < 2 ^ 63 :=
    (Layout.components_le hD hunique).trans_lt (by decide)
  have hpower : (Layout.power (Int64.ofNat D) (Int64.ofNat (Index.unique labels).length)).toInt
      = (D ^ (Index.unique labels).length : Nat) := by
    rw [Layout.power_ofNat D (by omega), Int64.toInt_ofNat_of_lt hN]
  obtain ⟨own, hown, hownf⟩ := s.make_follows (Index.unique labels) (Index.exclusive labels)
    (by omega) (Nat.le_trans (Index.length_exclusive_le labels) hcap) fun c =>
      mem_unique_of_mem_exclusive
  -- The row has one id for each assignment of the distinct labels, so the length check passes and
  -- the plan reads through the map from those assignments to the free ones.
  have hstep : Plan.step A t i x.kind = .ok (if x.kind = .scalar
      then .readScalars (ks.map Int32.ofNat) own
      else .readConstants (ks.map Int32.ofNat) own) := by
    have hrow : t.outer.row i = Index.exclusive labels := (s.holds.outer hx).trans hxo
    have hlabels : t.binding.row i = labels := (s.holds.binding hx).trans hbinding
    have hrefs : t.ids.row i = ks.map Int32.ofNat := (s.holds.ids hx).trans hids
    rw [s.holds.dim] at hown
    unfold Plan.step
    -- A scalar is read from the field at the point of the lane, a constant from the vector, which
    -- the hypothesis of coverage keeps long enough.
    cases constant with
    | false =>
      simp only [hkind, scalarKind, hrow, hlabels, hrefs, hown, s.holds.dim, hpower,
        List.length_map, hlen, ne_eq, not_true_eq_false, if_false, liftM_ok, ok_bind, pure_eq_ok,
        Bool.false_eq_true]
    | true =>
      simp only [hkind, scalarKind, hrow, hlabels, hrefs, hown, s.holds.dim, hpower,
        List.length_map, hlen, ne_eq, not_true_eq_false, if_false, liftM_ok, ok_bind, pure_eq_ok,
        if_true]
  refine ⟨_, s.node_eq_ok hx hstep, ?_⟩
  intro W S inputs f v hS hsmall hcover hf _
  have hend := window_before hx (List.getElem?_eq_some_iff.1 hx).1 (D := D)
  rw [hno, hxo] at *
  -- The entry at `k` is the word of the position of the reference `ref k` in its table.
  have hid : ∀ k e, (ks.map Int32.ofNat)[k]? = some e →
      ∃ id, e = Int32.ofNat id ∧ w.catalog.id (ref k) = .ok id := by
    intro k e he
    obtain ⟨id, hid, rfl⟩ := by simpa using he
    have hk := (List.getElem?_eq_some_iff.1 hid).1
    rw [hlen] at hk
    refine ⟨id, rfl, ?_⟩
    have hpair := (List.forall₂_iff_get.1 hforall).2 k (by simpa using hk) (by omega)
    simp only [List.get_eq_getElem, List.getElem_map, List.getElem_range] at hpair
    rw [hpair, (List.getElem?_eq_some_iff.1 hid).2]
  have hgets : ∀ k < (ks.map Int32.ofNat).length,
      own.get k = .ok (reindex D (Index.unique labels) (Index.exclusive labels) k : Nat) ∧
        reindex D (Index.unique labels) (Index.exclusive labels) k
          < D ^ (Index.exclusive labels).length := by
    intro k hk
    rw [List.length_map, hlen] at hk
    exact ⟨hownf.get k hk, reindex_lt s.pos hk⟩
  cases constant with
  | false =>
    have hvalue : ∀ k e, (ks.map Int32.ofNat)[k]? = some e → ∀ c < W,
        (.ok (inputs.field e.toInt64 (inputs.point + Int64.ofNat c)) : Except Fault α)
          = .ok (inputs.readRef w.catalog A.zero c (ref k)) := by
      intro k e he c _
      obtain ⟨id, rfl, hid⟩ := hid k e he
      rw [readRef_of_id hid, hconstant k]
      simp
    obtain ⟨f', hrun, hf'⟩ := Plan.runLeaf_shows (A := A) hf hsmall (Nat.le_trans hend hS) hgets
      hvalue
    refine ⟨f', _, ?_, hf', fun q _ c _ => ?_⟩
    · rw [hkind]
      exact hrun
    · rw [hwindow, List.length_map, hlen]
  | true =>
    have hvalue : ∀ k e, (ks.map Int32.ofNat)[k]? = some e → ∀ c < W,
        Plan.constantValue inputs e = .ok (inputs.readRef w.catalog A.zero c (ref k)) := by
      intro k e he c _
      obtain ⟨hpos, hsize⟩ := hcover x (List.mem_of_getElem? hx) hkind e
        (by rw [hids]; exact List.mem_of_getElem? he)
      obtain ⟨id, rfl, hid⟩ := hid k e he
      rw [readRef_of_id hid, hconstant k, constantValue_eq_ok A.zero hpos hsize]
      simp
    obtain ⟨f', hrun, hf'⟩ := Plan.runLeaf_shows (A := A) hf hsmall (Nat.le_trans hend hS) hgets
      hvalue
    refine ⟨f', _, ?_, hf', fun q _ c _ => ?_⟩
    · rw [hkind]
      exact hrun
    · rw [hwindow, List.length_map, hlen]

/-- A tensor is planned to read its components. -/
lemma Site.plans_tensor (s : Site w t D es) {symbol : Tensor} {labels : Index}
    (hx : es[i]? = some x) (hroot : rootEntry w (tensor symbol labels) left = .ok x)
    (hn : (tensor symbol labels).WellFormed) : Plan.Plans A D w t es i (tensor symbol labels) [] := by
  obtain ⟨slot, hslot, hroot⟩ := bind_eq_ok_iff.1 hroot
  obtain ⟨refs, hrefs, hslot⟩ := bind_eq_ok_iff.1 hslot
  have hD := s.le
  rw [s.dim, leafReferences_eq_ok s.pos (by omega) hn.1 hn.2] at hrefs
  obtain rfl := Except.ok.inj hrefs
  obtain ⟨ks, hks, hslot⟩ := bind_eq_ok_iff.1 hslot
  obtain rfl := Except.ok.inj hslot
  cases hroot
  exact s.plans_reading hx rfl rfl rfl rfl rfl hn.2 hks (fun _ => rfl) fun _ _ => by rw [window]

/-- A scalar is planned to be read. -/
lemma Site.plans_scalar (s : Site w t D es) {ref : ScalarRef} (hx : es[i]? = some x)
    (hroot : rootEntry w (scalar ref) left = .ok x) : Plan.Plans A D w t es i (scalar ref) [] := by
  obtain ⟨slot, hslot, hroot⟩ := bind_eq_ok_iff.1 hroot
  obtain ⟨k, hk, hslot⟩ := bind_eq_ok_iff.1 hslot
  cases hslot
  cases hroot
  have hks : ((List.range (D ^ (Index.unique []).length)).map fun _ => ref).mapM w.catalog.id
      = .ok [k] := by
    simp [Index.unique, hk]
  exact s.plans_reading hx rfl rfl rfl rfl rfl (Nat.zero_le _) hks (fun _ => rfl)
    fun _ _ => by rw [window]; rfl

/-! ### Any node -/

/-- A leaf is planned without operands. -/
lemma Site.plans_leaf (s : Site w t D es) {n : Expr} (hx : es[i]? = some x)
    (hroot : rootEntry w n left = .ok x) (hn : n.WellFormed) (hops : n.operands? = none) :
    Plan.Plans A D w t es i n [] := by
  cases n with
  | literal => exact s.plans_literal hx hroot
  | tensor => exact s.plans_tensor hx hroot hn
  | delta => exact s.plans_delta hx hroot hn
  | epsilon => exact s.plans_epsilon hx hroot hn
  | scalar => exact s.plans_scalar hx hroot
  | _ => cases hops

/-- A unary node is planned above its operand. -/
lemma Site.plans_unary (s : Site w t D es) {n : Expr} (hx : es[i]? = some x)
    (hroot : rootEntry w n left = .ok x) (hn : n.WellFormed) (hmark : n.hasDerivative = false)
    (hops : n.operands? = some (e, e)) (harity : n.kind.arity = .unary) (hy : es[i - 1]? = some y)
    (hyo : y.outer = e.outer) (hi : 0 < i) :
    Plan.Plans A D w t es i n [(e, below D es (i - 1))] := by
  cases n with
  | negate =>
    cases hops
    exact s.plans_negate hx hroot hy hyo hi
  | apply =>
    cases hops
    exact s.plans_apply hx hroot hn hy hyo hi
  | bind =>
    cases hops
    exact s.plans_bind hx hroot hn hy hyo hi
  | derivative => cases hmark
  | literal => cases hops
  | tensor => cases hops
  | delta => cases hops
  | epsilon => cases hops
  | scalar => cases hops
  | _ => cases harity

/-- A binary node is planned above its operands. -/
lemma Site.plans_binary (s : Site w t D es) {n : Expr} (hx : es[i]? = some x)
    (hroot : rootEntry w n (Int32.ofNat j) = .ok x) (hn : n.WellFormed)
    (hops : n.operands? = some (l, r)) (harity : n.kind.arity = .binary) (hy : es[j]? = some y)
    (hyo : y.outer = l.outer) (hz : es[i - 1]? = some z) (hzo : z.outer = r.outer) (hji : j < i) :
    Plan.Plans A D w t es i n [(l, below D es j), (r, below D es (i - 1))] := by
  cases n with
  | sum =>
    cases hops
    exact s.plans_sum hx hroot hn hy hyo hz hzo hji
  | difference =>
    cases hops
    exact s.plans_difference hx hroot hn hy hyo hz hzo hji
  | product =>
    cases hops
    exact s.plans_product hx hroot hn hy hyo hz hzo hji
  | ratio =>
    cases hops
    exact s.plans_ratio hx hroot hn hy hyo hz hzo hji
  | power =>
    cases hops
    exact s.plans_power hx hroot hn hy hyo hz hzo hji
  | literal => cases hops
  | tensor => cases hops
  | delta => cases hops
  | epsilon => cases hops
  | scalar => cases hops
  | _ => cases harity

end Nodes

end Indicial
