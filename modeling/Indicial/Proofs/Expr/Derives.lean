import Indicial.Expr.Derivative
import Indicial.Proofs.Expr.Rename

/-!
# The rules of differentiation

`Derives constant n k m` says that `m` is what the rules of calculus make of the derivative of `n`
along the label `k`. It has one constructor for each rule: the sum, product, quotient, power and chain
rules, each in a version for operands that are constant, the rule for relabellings, and the rules that
first rename a label which the node sums over. Differentiating an expression without marks is one of
these rules at every node (`differentiate_derives`).

What the rules make is well formed, has no marks, and is free in the labels that occur once among
those of the expression and the direction (`Derives.derived`).
-/

namespace Indicial.Expr

/-- The rules of differentiation along a label. -/
inductive Derives (constant : Constancy) : Expr → Label → Expr → Prop where
  | zero {n k m} :
    n.dependsOnly constant = true →
    (n.outer ++ [k]).length ≤ Index.capacity →
    mkZero (Index.exclusive (n.outer ++ [k])) = .ok m →
    Derives constant n k m
  | leaf {symbol labels k m} :
    constant symbol = false →
    k ∉ Index.repeated labels →
    (labels ++ [k]).length ≤ Index.capacity →
    mkLeaf symbol (labels ++ [k]) = .ok m →
    Derives constant (tensor symbol labels) k m
  | renameLeaf {symbol labels k m} (fresh : Label) :
    k ∈ Index.repeated labels →
    fresh ∉ labels →
    Derives constant (tensor symbol (Index.rename labels k fresh)) k m →
    Derives constant (tensor symbol labels) k m
  | negate {e k d} :
    Derives constant e k d →
    Derives constant (negate e) k (negate d)
  | sumLeft {l r k dl} :
    r.dependsOnly constant = true →
    Derives constant l k dl →
    Derives constant (sum l r) k dl
  | sumRight {l r k dr} :
    l.dependsOnly constant = true →
    Derives constant r k dr →
    Derives constant (sum l r) k dr
  | sum {l r k dl dr m} :
    Derives constant l k dl →
    Derives constant r k dr →
    mkSum dl dr = .ok m →
    Derives constant (sum l r) k m
  | differenceLeft {l r k dl} :
    r.dependsOnly constant = true →
    Derives constant l k dl →
    Derives constant (difference l r) k dl
  | differenceRight {l r k dr} :
    l.dependsOnly constant = true →
    Derives constant r k dr →
    Derives constant (difference l r) k (.negate dr)
  | difference {l r k dl dr m} :
    Derives constant l k dl →
    Derives constant r k dr →
    mkDifference dl dr = .ok m →
    Derives constant (difference l r) k m
  | productLeft {l r k dl m} :
    k ∉ Index.intersect l.outer r.outer →
    r.dependsOnly constant = true →
    Derives constant l k dl →
    mkProduct dl r = .ok m →
    Derives constant (product l r) k m
  | productRight {l r k dr m} :
    k ∉ Index.intersect l.outer r.outer →
    l.dependsOnly constant = true →
    Derives constant r k dr →
    mkProduct l dr = .ok m →
    Derives constant (product l r) k m
  | product {l r k dl dr a b m} :
    k ∉ Index.intersect l.outer r.outer →
    Derives constant l k dl →
    Derives constant r k dr →
    mkProduct dl r = .ok a →
    mkProduct l dr = .ok b →
    mkSum a b = .ok m →
    Derives constant (product l r) k m
  | renameProduct {l r k m} (fresh : Label) :
    k ∈ Index.intersect l.outer r.outer →
    fresh ∉ l.outer →
    fresh ∉ r.outer →
    Derives constant
      (product (bind l (Index.rename l.outer k fresh)) (bind r (Index.rename r.outer k fresh))) k m →
    Derives constant (product l r) k m
  | ratioLeft {l r k dl m} :
    k ∉ Index.intersect l.outer r.outer →
    r.dependsOnly constant = true →
    Derives constant l k dl →
    mkRatio dl r = .ok m →
    Derives constant (ratio l r) k m
  | ratioRight {l r k dr b square m} :
    l.dependsOnly constant = true →
    Derives constant r k dr →
    mkProduct l dr = .ok b →
    mkSquare r = .ok square →
    mkRatio (.negate b) square = .ok m →
    Derives constant (ratio l r) k m
  | ratio {l r k dl dr a b num square m} :
    Derives constant l k dl →
    Derives constant r k dr →
    mkProduct dl r = .ok a →
    mkProduct l dr = .ok b →
    mkDifference a b = .ok num →
    mkSquare r = .ok square →
    mkRatio num square = .ok m →
    Derives constant (ratio l r) k m
  | renameRatio {l r k m} (fresh : Label) :
    k ∈ Index.intersect l.outer r.outer →
    fresh ∉ l.outer →
    fresh ∉ r.outer →
    Derives constant
      (ratio (bind l (Index.rename l.outer k fresh)) (bind r (Index.rename r.outer k fresh))) k m →
    Derives constant (ratio l r) k m
  | power {u q labels k du lower coefficient m} :
    Derives constant u k du →
    mkPower u (number (.exact (q - 1))) = .ok lower →
    mkProduct (number (.exact q)) lower = .ok coefficient →
    mkProduct coefficient du = .ok m →
    Derives constant (power u (literal (.exact q) labels)) k m
  | apply {f u k slope du m} :
    functionDerivative f u = .ok slope →
    Derives constant u k du →
    mkProduct slope du = .ok m →
    Derives constant (apply f u) k m
  | bind {e target k d labels m} (fresh : Label) :
    k ∉ Index.repeated target →
    fresh ∉ e.outer →
    Derives constant e fresh d →
    (d.outer.mapM fun c =>
      if c == fresh then .ok k else Index.get target (Index.position e.outer c)) = .ok labels →
    mkBind d labels = .ok m →
    Derives constant (bind e target) k m
  | renameBind {e target k m} (fresh : Label) :
    k ∈ Index.repeated target →
    fresh ∉ target →
    Derives constant (bind e (Index.rename target k fresh)) k m →
    Derives constant (bind e target) k m

/-! ### Differentiation follows the rules -/

section Inversion

variable {constant : Constancy} {e l r n m : Expr} {k fresh : Label} {target : Index}
  {u v : Operand} {dl dr du : Label → Except Fault Expr}

/-- A fresh label is new to the node. -/
lemma not_mem_of_freshLabel (h : freshLabel n k = .ok fresh) :
    fresh ≠ k ∧ fresh ∉ n.outer ∧ fresh ∉ n.index ∧ fresh ∉ n.renamed := by
  have hfresh := Index.not_mem_of_fresh h
  have hself : n ∈ n.postorder := mem_postorder_self n
  simp only [allLabels, List.mem_cons, List.mem_flatMap, List.mem_append, not_or, not_exists,
    not_and] at hfresh
  have hn := hfresh.2 n hself
  exact ⟨hfresh.1, hn.1.1, hn.1.2, hn.2⟩

/-- A fresh label of a product or ratio is new to its operands. -/
lemma not_mem_operands_of_freshLabel (hops : n.operands? = some (l, r))
    (h : freshLabel n k = .ok fresh) : fresh ∉ l.outer ∧ fresh ∉ r.outer := by
  have hfresh := Index.not_mem_of_fresh h
  simp only [allLabels, List.mem_cons, List.mem_flatMap, List.mem_append, not_or, not_exists,
    not_and] at hfresh
  have hl : l ∈ n.postorder := (mem_postorder_of_operands hops).2 (.inl (mem_postorder_self l))
  have hr : r ∈ n.postorder :=
    (mem_postorder_of_operands hops).2 (.inr (.inl (mem_postorder_self r)))
  exact ⟨(hfresh.2 l hl).1.1, (hfresh.2 r hr).1.1⟩

/-- A zero is a derivative of what depends on constants only. -/
lemma zeroDerivative_derives (hn : n.dependsOnly constant = true)
    (h : zeroDerivative n k = .ok m) : Derives constant n k m := by
  obtain ⟨labels, hlabels, h⟩ := bind_eq_ok_iff.1 h
  obtain ⟨rfl, hle⟩ := Index.concat_eq_ok_iff.1 hlabels
  exact .zero hn hle h

/-- An operand that knows whether it is constant, and what the rules make of its derivative. -/
structure Operand.Sound (constant : Constancy) (u : Operand) (k : Label) : Prop where
  constant_eq : u.constant = u.expr.dependsOnly constant
  derives : ∀ d, u.derivative () = .ok d → Derives constant u.expr k d

/-- The rule for sums derives the sum of its operands. -/
lemma additiveRule_derives (hu : u.Sound constant k) (hv : v.Sound constant k)
    (h : additiveRule true u v = .ok m) : Derives constant (sum u.expr v.expr) k m := by
  unfold additiveRule at h
  split at h
  · rename_i hc
    obtain ⟨d, hd, h⟩ := bind_eq_ok_iff.1 h
    cases h
    exact .sumRight (hu.constant_eq ▸ hc) (hv.derives _ hd)
  · split at h
    · rename_i hc
      exact .sumLeft (hv.constant_eq ▸ hc) (hu.derives _ h)
    · obtain ⟨a, ha, h⟩ := bind_eq_ok_iff.1 h
      obtain ⟨b, hb, h⟩ := bind_eq_ok_iff.1 h
      exact .sum (hu.derives _ ha) (hv.derives _ hb) h

/-- The rule for differences derives the difference of its operands. -/
lemma subtractiveRule_derives (hu : u.Sound constant k) (hv : v.Sound constant k)
    (h : additiveRule false u v = .ok m) : Derives constant (difference u.expr v.expr) k m := by
  unfold additiveRule at h
  split at h
  · rename_i hc
    obtain ⟨d, hd, h⟩ := bind_eq_ok_iff.1 h
    cases h
    exact .differenceRight (hu.constant_eq ▸ hc) (hv.derives _ hd)
  · split at h
    · rename_i hc
      exact .differenceLeft (hv.constant_eq ▸ hc) (hu.derives _ h)
    · obtain ⟨a, ha, h⟩ := bind_eq_ok_iff.1 h
      obtain ⟨b, hb, h⟩ := bind_eq_ok_iff.1 h
      exact .difference (hu.derives _ ha) (hv.derives _ hb) h

/-- The product rule derives the product of its operands. -/
lemma productRule_derives (hk : k ∉ Index.intersect u.expr.outer v.expr.outer)
    (hu : u.Sound constant k) (hv : v.Sound constant k) (h : productRule u v = .ok m) :
    Derives constant (product u.expr v.expr) k m := by
  unfold productRule at h
  split at h
  · rename_i hc
    obtain ⟨d, hd, h⟩ := bind_eq_ok_iff.1 h
    exact .productRight hk (hu.constant_eq ▸ hc) (hv.derives _ hd) h
  · split at h
    · rename_i hc
      obtain ⟨d, hd, h⟩ := bind_eq_ok_iff.1 h
      exact .productLeft hk (hv.constant_eq ▸ hc) (hu.derives _ hd) h
    · obtain ⟨du, hdu, h⟩ := bind_eq_ok_iff.1 h
      obtain ⟨a, ha, h⟩ := bind_eq_ok_iff.1 h
      obtain ⟨dv, hdv, h⟩ := bind_eq_ok_iff.1 h
      obtain ⟨b, hb, h⟩ := bind_eq_ok_iff.1 h
      exact .product hk (hu.derives _ hdu) (hv.derives _ hdv) ha hb h

/-- The quotient rule derives the quotient of its operands. -/
lemma quotientRule_derives (hk : k ∉ Index.intersect u.expr.outer v.expr.outer)
    (hu : u.Sound constant k) (hv : v.Sound constant k) (h : quotientRule u v = .ok m) :
    Derives constant (ratio u.expr v.expr) k m := by
  unfold quotientRule at h
  split at h
  · rename_i hc
    obtain ⟨d, hd, h⟩ := bind_eq_ok_iff.1 h
    exact .ratioLeft hk (hv.constant_eq ▸ hc) (hu.derives _ hd) h
  · split at h
    · rename_i hc
      obtain ⟨d, hd, h⟩ := bind_eq_ok_iff.1 h
      obtain ⟨b, hb, h⟩ := bind_eq_ok_iff.1 h
      obtain ⟨num, hnum, h⟩ := bind_eq_ok_iff.1 h
      obtain ⟨square, hsquare, h⟩ := bind_eq_ok_iff.1 h
      cases hnum
      exact .ratioRight (hu.constant_eq ▸ hc) (hv.derives _ hd) hb hsquare h
    · obtain ⟨du, hdu, h⟩ := bind_eq_ok_iff.1 h
      obtain ⟨a, ha, h⟩ := bind_eq_ok_iff.1 h
      obtain ⟨dv, hdv, h⟩ := bind_eq_ok_iff.1 h
      obtain ⟨b, hb, h⟩ := bind_eq_ok_iff.1 h
      obtain ⟨num, hnum, h⟩ := bind_eq_ok_iff.1 h
      obtain ⟨square, hsquare, h⟩ := bind_eq_ok_iff.1 h
      exact .ratio (hu.derives _ hdu) (hv.derives _ hdv) ha hb hnum hsquare h

/-- The rule for bindings derives the bound expression. -/
lemma bindRule_derives (hk : k ∉ Index.repeated target)
    (hdu : ∀ f d, du f = .ok d → Derives constant e f d)
    (h : bindRule e target k du = .ok m) : Derives constant (bind e target) k m := by
  obtain ⟨fresh, hfresh, h⟩ := bind_eq_ok_iff.1 h
  obtain ⟨d, hd, h⟩ := bind_eq_ok_iff.1 h
  obtain ⟨labels, hlabels, h⟩ := bind_eq_ok_iff.1 h
  exact .bind fresh hk (not_mem_of_freshLabel hfresh).2.2.2 (hdu _ _ hd) hlabels h

/-- A factor in which the label of the direction was renamed away. -/
lemma renamedOperand_sound (hk : k ∉ target)
    (hdu : ∀ f d, du f = .ok d → Derives constant e f d) :
    (renamedOperand constant e target k du).Sound constant k := by
  refine ⟨rfl, fun d hd => ?_⟩
  simp only [renamedOperand] at hd
  split at hd
  · rename_i hc
    exact zeroDerivative_derives hc hd
  · refine bindRule_derives (fun hrep => hk ?_) hdu hd
    have hcount : 1 < target.count k := Index.mem_repeated.1 hrep
    exact List.count_pos_iff.1 (by omega)

/-- The factors of a product or ratio are its operands, in which a summed direction was renamed. -/
lemma factors_eq_ok (hops : n.operands? = some (l, r))
    (hcontracted : n.contracted = Index.intersect l.outer r.outer)
    (hdl : ∀ f d, dl f = .ok d → Derives constant l f d)
    (hdr : ∀ f d, dr f = .ok d → Derives constant r f d)
    (h : factors constant n l r k dl dr = .ok (u, v)) :
    u.Sound constant k ∧ v.Sound constant k ∧
      k ∉ Index.intersect u.expr.outer v.expr.outer ∧
      ((u.expr = l ∧ v.expr = r) ∨
        ∃ fresh, k ∈ Index.intersect l.outer r.outer ∧ fresh ∉ l.outer ∧ fresh ∉ r.outer ∧
          u.expr = bind l (Index.rename l.outer k fresh) ∧
          v.expr = bind r (Index.rename r.outer k fresh)) := by
  unfold factors at h
  rw [hcontracted] at h
  split at h
  · rename_i hk
    obtain ⟨fresh, hfresh, h⟩ := bind_eq_ok_iff.1 h
    obtain ⟨l', hl', h⟩ := bind_eq_ok_iff.1 h
    obtain ⟨r', hr', h⟩ := bind_eq_ok_iff.1 h
    obtain ⟨_, -, h⟩ := bind_eq_ok_iff.1 h
    obtain ⟨rfl, -⟩ := mkBind_eq_ok_iff.1 hl'
    obtain ⟨rfl, -⟩ := mkBind_eq_ok_iff.1 hr'
    cases h
    have hne := (not_mem_of_freshLabel hfresh).1
    obtain ⟨hfl, hfr⟩ := not_mem_operands_of_freshLabel hops hfresh
    have hkl : k ∉ Index.rename l.outer k fresh := Index.not_mem_rename _ hne
    have hkr : k ∉ Index.rename r.outer k fresh := Index.not_mem_rename _ hne
    refine ⟨renamedOperand_sound hkl hdl, renamedOperand_sound hkr hdr, ?_, .inr ?_⟩
    · intro hmem
      exact hkl (Index.mem_of_mem_exclusive (Index.mem_intersect.1 hmem).1)
    · exact ⟨fresh, by simpa using hk, hfl, hfr, rfl, rfl⟩
  · rename_i hk
    cases h
    exact ⟨⟨rfl, hdl k⟩, ⟨rfl, hdr k⟩, by simpa using hk, .inl ⟨rfl, rfl⟩⟩

end Inversion

/-- Differentiating an expression without marks follows the rules. -/
theorem differentiate_derives {constant : Constancy}
    {atMark : Expr → Index → Label → Except Fault Expr} {n m : Expr} {k : Label}
    (hn : n.hasDerivative = false) (h : differentiate constant atMark n k = .ok m) :
    Derives constant n k m := by
  -- The label is general, since below a binding the derivative is along a fresh one.
  induction n generalizing k m with
  | literal x labels => exact zeroDerivative_derives rfl (by simpa [differentiate, dependsOnly] using h)
  | delta labels => exact zeroDerivative_derives rfl (by simpa [differentiate, dependsOnly] using h)
  | epsilon labels => exact zeroDerivative_derives rfl (by simpa [differentiate, dependsOnly] using h)
  | derivative => cases hn
  | scalar ref =>
    rw [differentiate] at h
    split at h
    · exact zeroDerivative_derives (by assumption) h
    · cases h
  | tensor symbol labels =>
    rw [differentiate] at h
    split at h
    · exact zeroDerivative_derives (by assumption) h
    · rename_i hc
      have hc : constant symbol = false := by simpa [dependsOnly] using hc
      dsimp only at h
      split at h
      · rename_i hk
        obtain ⟨fresh, hfresh, h⟩ := bind_eq_ok_iff.1 h
        rw [pure_eq_ok, ok_bind] at h
        obtain ⟨whole, hwhole, h⟩ := bind_eq_ok_iff.1 h
        obtain ⟨rfl, hle⟩ := Index.concat_eq_ok_iff.1 hwhole
        obtain ⟨hne, -, hindex, -⟩ := not_mem_of_freshLabel hfresh
        refine .renameLeaf fresh (by simpa using hk) hindex (.leaf hc ?_ hle h)
        -- After the renaming the label `k` does not occur in the leaf, so it can be appended.
        rw [Index.mem_repeated, List.count_eq_zero.2 (Index.not_mem_rename _ hne)]
        omega
      · rename_i hk
        rw [pure_eq_ok, ok_bind] at h
        obtain ⟨whole, hwhole, h⟩ := bind_eq_ok_iff.1 h
        obtain ⟨rfl, hle⟩ := Index.concat_eq_ok_iff.1 hwhole
        exact .leaf hc (by simpa using hk) hle h
  | negate e ih =>
    rw [differentiate] at h
    split at h
    · exact zeroDerivative_derives (by assumption) h
    · obtain ⟨d, hd, h⟩ := bind_eq_ok_iff.1 h
      cases h
      exact .negate (ih hn hd)
  | apply f e ih =>
    rw [differentiate] at h
    split at h
    · exact zeroDerivative_derives (by assumption) h
    · obtain ⟨slope, hslope, h⟩ := bind_eq_ok_iff.1 h
      obtain ⟨d, hd, h⟩ := bind_eq_ok_iff.1 h
      exact .apply hslope (ih hn hd) h
  | bind e target ih =>
    rw [differentiate] at h
    split at h
    · exact zeroDerivative_derives (by assumption) h
    · split at h
      · rename_i hk
        obtain ⟨fresh, hfresh, h⟩ := bind_eq_ok_iff.1 h
        obtain ⟨_, -, h⟩ := bind_eq_ok_iff.1 h
        obtain ⟨hne, -, hindex, -⟩ := not_mem_of_freshLabel hfresh
        refine .renameBind fresh (by simpa using hk) hindex (bindRule_derives ?_ (fun _ _ => ih hn) h)
        rw [Index.mem_repeated, List.count_eq_zero.2 (Index.not_mem_rename _ hne)]
        omega
      · rename_i hk
        exact bindRule_derives (by simpa using hk) (fun _ _ => ih hn) h
  | sum l r ihl ihr =>
    rw [hasDerivative, Bool.or_eq_false_iff] at hn
    rw [differentiate] at h
    split at h
    · exact zeroDerivative_derives (by assumption) h
    · exact additiveRule_derives ⟨rfl, fun _ => ihl hn.1⟩ ⟨rfl, fun _ => ihr hn.2⟩ h
  | difference l r ihl ihr =>
    rw [hasDerivative, Bool.or_eq_false_iff] at hn
    rw [differentiate] at h
    split at h
    · exact zeroDerivative_derives (by assumption) h
    · exact subtractiveRule_derives ⟨rfl, fun _ => ihl hn.1⟩ ⟨rfl, fun _ => ihr hn.2⟩ h
  | product l r ihl ihr =>
    rw [hasDerivative, Bool.or_eq_false_iff] at hn
    rw [differentiate] at h
    split at h
    · exact zeroDerivative_derives (by assumption) h
    · obtain ⟨⟨u, v⟩, huv, h⟩ := bind_eq_ok_iff.1 h
      obtain ⟨hu, hv, hk, ⟨hul, hvr⟩ | ⟨fresh, hmem, hfl, hfr, hul, hvr⟩⟩ :=
        factors_eq_ok rfl rfl (fun _ _ => ihl hn.1) (fun _ _ => ihr hn.2) huv
      · have hrule := productRule_derives hk hu hv h
        rwa [hul, hvr] at hrule
      · have hrule := productRule_derives hk hu hv h
        rw [hul, hvr] at hrule
        exact .renameProduct fresh hmem hfl hfr hrule
  | ratio l r ihl ihr =>
    rw [hasDerivative, Bool.or_eq_false_iff] at hn
    rw [differentiate] at h
    split at h
    · exact zeroDerivative_derives (by assumption) h
    · obtain ⟨⟨u, v⟩, huv, h⟩ := bind_eq_ok_iff.1 h
      obtain ⟨hu, hv, hk, ⟨hul, hvr⟩ | ⟨fresh, hmem, hfl, hfr, hul, hvr⟩⟩ :=
        factors_eq_ok rfl rfl (fun _ _ => ihl hn.1) (fun _ _ => ihr hn.2) huv
      · have hrule := quotientRule_derives hk hu hv h
        rwa [hul, hvr] at hrule
      · have hrule := quotientRule_derives hk hu hv h
        rw [hul, hvr] at hrule
        exact .renameRatio fresh hmem hfl hfr hrule
  | power u e ihu _ =>
    rw [hasDerivative, Bool.or_eq_false_iff] at hn
    unfold differentiate at h
    split at h
    · exact zeroDerivative_derives (by assumption) h
    · dsimp only at h
      split at h
      · obtain ⟨lower, hlower, h⟩ := bind_eq_ok_iff.1 h
        obtain ⟨coefficient, hcoefficient, h⟩ := bind_eq_ok_iff.1 h
        obtain ⟨d, hd, h⟩ := bind_eq_ok_iff.1 h
        exact .power (ihu hn.1 hd) hlower hcoefficient h
      · cases h

/-! ### What the rules make -/

section Labels

variable {a b : Index} {c k : Label}

/-- Which labels are free after a derivative along `k`. -/
lemma mem_exclusive_append_singleton (ha : a.Nodup) :
    c ∈ Index.exclusive (a ++ [k]) ↔ (c ∈ a ∧ c ≠ k) ∨ (c ∉ a ∧ c = k) := by
  have hle := List.nodup_iff_count_le_one.1 ha c
  have hpos : c ∈ a ↔ 0 < a.count c := List.count_pos_iff.symm
  rw [Index.mem_exclusive, List.count_append, List.count_singleton, hpos]
  grind

/-- A direction that is free in a product is summed in its derivative; any other becomes free. -/
lemma symmetricDifference_exclusive (ha : a.Nodup) (hb : b.Nodup) :
    (Index.symmetricDifference (Index.exclusive (a ++ [k])) b).Perm
      (Index.exclusive (Index.symmetricDifference a b ++ [k])) := by
  have hab := Index.nodup_symmetricDifference ha hb
  apply Index.perm_of_nodup
  · exact Index.nodup_symmetricDifference (Index.nodup_exclusive _) hb
  · exact Index.nodup_exclusive _
  · intro c
    rw [mem_exclusive_append_singleton hab]
    simp only [Index.mem_symmetricDifference, mem_exclusive_append_singleton ha]
    grind

/-- A direction can be added before or after the repeated labels are taken out. -/
lemma exclusive_exclusive_append (hk : k ∉ Index.repeated a) :
    (Index.exclusive (Index.exclusive a ++ [k])).Perm (Index.exclusive (a ++ [k])) := by
  apply Index.perm_of_nodup (Index.nodup_exclusive _) (Index.nodup_exclusive _)
  intro c
  rw [mem_exclusive_append_singleton (Index.nodup_exclusive a)]
  rw [Index.mem_repeated] at hk
  simp only [Index.mem_exclusive, List.count_append, List.count_singleton]
  grind

end Labels

/-- What a derivative along `k` gives: an expression without marks, free in the labels that occur
once among those of `n` and `k`. -/
structure Derived (n : Expr) (k : Label) (m : Expr) : Prop where
  wellFormed : m.WellFormed
  hasDerivative : m.hasDerivative = false
  outer_perm : m.outer.Perm (Index.exclusive (n.outer ++ [k]))

section Derived

variable {constant : Constancy} {n m e d u : Expr} {k fresh : Label}

/-- The same free labels have the same derivatives. -/
lemma Derived.congr {n' : Expr} (h : Derived n' k m) (hperm : n'.outer.Perm n.outer) :
    Derived n k m :=
  ⟨h.wellFormed, h.hasDerivative,
    h.outer_perm.trans (Index.exclusive_perm (hperm.append_right [k]))⟩

/-- The negated derivative has the labels of the derivative. -/
lemma Derived.negate (h : Derived n k m) : Derived n k (negate m) :=
  ⟨h.wellFormed, h.hasDerivative, h.outer_perm⟩

/-- The sum of two such expressions has their labels. -/
lemma Derived.sum {a b : Expr} (ha : Derived n k a) (hb : Derived n k b) : Derived n k (sum a b) :=
  ⟨⟨ha.wellFormed, hb.wellFormed, ha.outer_perm.trans hb.outer_perm.symm⟩,
    by simp [Expr.hasDerivative, ha.hasDerivative, hb.hasDerivative], ha.outer_perm⟩

/-- The difference of two such expressions has their labels. -/
lemma Derived.difference {a b : Expr} (ha : Derived n k a) (hb : Derived n k b) :
    Derived n k (difference a b) :=
  ⟨⟨ha.wellFormed, hb.wellFormed, ha.outer_perm.trans hb.outer_perm.symm⟩,
    by simp [Expr.hasDerivative, ha.hasDerivative, hb.hasDerivative], ha.outer_perm⟩

/-- The derivative of a function at an expression. -/
def slope (f : Func) (u : Expr) : Expr :=
  match f with
  | .sin => apply .cos u
  | .cos => negate (apply .sin u)
  | .tan => sum one (power (apply .tan u) (number (Literal.ofInt 2)))
  | .exp => apply .exp u
  | .log => ratio one u
  | .sqrt => ratio one (product (number (Literal.ofInt 2)) (apply .sqrt u))
  | .sinh => apply .cosh u
  | .cosh => apply .sinh u
  | .tanh => difference one (power (apply .tanh u) (number (Literal.ofInt 2)))

/-- The outer derivative that the builders make is the one of the function. -/
lemma functionDerivative_eq_slope {f : Func} (h : functionDerivative f u = .ok m) :
    m = slope f u := by
  cases f with
  | sin => exact (mkApply_eq_ok_iff.1 h).1
  | cos =>
    obtain ⟨a, ha, h⟩ := bind_eq_ok_iff.1 h
    cases h
    rw [(mkApply_eq_ok_iff.1 ha).1, slope]
  | tan =>
    obtain ⟨a, ha, h⟩ := bind_eq_ok_iff.1 h
    obtain ⟨b, hb, h⟩ := bind_eq_ok_iff.1 h
    rw [(mkSum_eq_ok_iff.1 h).1, (mkPower_eq_ok_iff.1 hb).1, (mkApply_eq_ok_iff.1 ha).1, slope]
  | exp => exact (mkApply_eq_ok_iff.1 h).1
  | log => exact (mkRatio_eq_ok_iff.1 h).1
  | sqrt =>
    obtain ⟨a, ha, h⟩ := bind_eq_ok_iff.1 h
    obtain ⟨b, hb, h⟩ := bind_eq_ok_iff.1 h
    rw [(mkRatio_eq_ok_iff.1 h).1, (mkProduct_eq_ok_iff.1 hb).1, (mkApply_eq_ok_iff.1 ha).1, slope]
  | sinh => exact (mkApply_eq_ok_iff.1 h).1
  | cosh => exact (mkApply_eq_ok_iff.1 h).1
  | tanh =>
    obtain ⟨a, ha, h⟩ := bind_eq_ok_iff.1 h
    obtain ⟨b, hb, h⟩ := bind_eq_ok_iff.1 h
    rw [(mkDifference_eq_ok_iff.1 h).1, (mkPower_eq_ok_iff.1 hb).1, (mkApply_eq_ok_iff.1 ha).1,
      slope]

/-- The derivative of a function at an expression of rank zero has rank zero. -/
lemma outer_slope (f : Func) (hrank : u.outer = []) : (slope f u).outer = [] := by
  cases f <;> simp [slope, outer, one, number, hrank]

/-- The outer derivative of a function has no marks if the argument has none. -/
lemma hasDerivative_slope (f : Func) (hmark : u.hasDerivative = false) :
    (slope f u).hasDerivative = false := by
  cases f <;> simp [slope, hasDerivative, one, number, hmark]

/-- The outer derivative of a function is well-formed if the argument is. -/
lemma wellFormed_slope {f : Func} (hu : u.WellFormed) (hrank : u.outer = [])
    (h : functionDerivative f u = .ok m) : (slope f u).WellFormed := by
  have hone : one.WellFormed := ⟨List.nodup_nil, Nat.zero_le _⟩
  have htwo : (number (Literal.ofInt 2)).WellFormed := ⟨List.nodup_nil, Nat.zero_le _⟩
  cases f with
  | tan => exact ⟨hone, ⟨⟨hu, hrank⟩, htwo, rfl, rfl⟩, .refl _⟩
  | tanh => exact ⟨hone, ⟨⟨hu, hrank⟩, htwo, rfl, rfl⟩, .refl _⟩
  | log => exact ⟨hone, hu, (mkRatio_eq_ok_iff.1 h).2⟩
  | sqrt => exact ⟨hone, ⟨htwo, ⟨hu, hrank⟩, by simp [outer, number]⟩, rfl, by simp [outer, one, number]⟩
  | _ => exact ⟨hu, hrank⟩

/-- The targets of the relabelling of a derivative. -/
lemma bind_labels_eq {f : Label → Label} {labels : Index}
    (hd : d.outer.Perm (Index.exclusive (e.outer ++ [fresh]))) (he : e.outer.Nodup)
    (h : (d.outer.mapM fun c =>
      if c == fresh then .ok k
      else Index.get (e.outer.map f) (Index.position e.outer c)) = .ok labels) :
    labels = d.outer.map fun c => if c == fresh then k else f c := by
  rw [mapM_eq_ok_of_forall (g := fun c => if c == fresh then k else f c)] at h
  · cases h
    rfl
  · intro c hc
    split
    · rfl
    · rename_i hne
      rw [beq_iff_eq] at hne
      have hmem : c ∈ e.outer := by
        rcases (mem_exclusive_append_singleton he).1 (hd.mem_iff.1 hc) with h | h
        · exact h.1
        · exact absurd h.2 hne
      exact get_map_position f hmem

/-- The free labels of a derivative along a fresh label, relabelled. -/
lemma outer_map_perm {f : Label → Label} (hfresh : fresh ∉ e.outer) (he : e.outer.Nodup)
    (hd : d.outer.Perm (Index.exclusive (e.outer ++ [fresh]))) :
    (d.outer.map fun c => if c == fresh then k else f c).Perm (e.outer.map f ++ [k]) := by
  have hnodup : (e.outer ++ [fresh]).Nodup := by
    rw [List.nodup_append]
    simp only [List.nodup_singleton, List.mem_singleton, true_and]
    refine ⟨he, fun c hc d hd h => hfresh ?_⟩
    rw [← hd, ← h]
    exact hc
  rw [Index.exclusive_eq_self hnodup] at hd
  refine (hd.map _).trans ?_
  rw [List.map_append, List.map_singleton, if_pos (beq_self_eq_true fresh)]
  refine List.Perm.append_right _ (List.Perm.of_eq (List.map_congr_left fun c hc => ?_))
  have hne : c ≠ fresh := by
    rintro rfl
    exact hfresh hc
  simp [hne]

/-- A factor in place of which its derivative stands. -/
lemma Derived.product_left {l r dl : Expr} (h : Derived l k dl) (hl : l.WellFormed)
    (hr : r.WellFormed) (hmark : r.hasDerivative = false) (hm : mkProduct dl r = .ok m) :
    Derived (product l r) k m := by
  obtain ⟨rfl, hle⟩ := mkProduct_eq_ok_iff.1 hm
  refine ⟨⟨h.wellFormed, hr, hle⟩, by simp [Expr.hasDerivative, h.hasDerivative, hmark], ?_⟩
  exact (Index.symmetricDifference_perm h.outer_perm (.refl _)).trans
    (symmetricDifference_exclusive hl.nodup_outer hr.nodup_outer)

/-- The left factor times a derivative of the right one has the labels of the derivative of the product.
-/
lemma Derived.product_right {l r dr : Expr} (h : Derived r k dr) (hl : l.WellFormed)
    (hr : r.WellFormed) (hmark : l.hasDerivative = false) (hm : mkProduct l dr = .ok m) :
    Derived (product l r) k m := by
  obtain ⟨rfl, hle⟩ := mkProduct_eq_ok_iff.1 hm
  refine ⟨⟨hl, h.wellFormed, hle⟩, by simp [Expr.hasDerivative, h.hasDerivative, hmark], ?_⟩
  have hswap : (Index.symmetricDifference dr.outer l.outer).Perm
      (Index.exclusive (Index.symmetricDifference r.outer l.outer ++ [k])) :=
    (Index.symmetricDifference_perm h.outer_perm (.refl _)).trans
      (symmetricDifference_exclusive hr.nodup_outer hl.nodup_outer)
  have hcomm := Index.symmetricDifference_comm r.outer l.outer
  exact ((Index.symmetricDifference_comm _ _).trans hswap).trans
    (Index.exclusive_perm (hcomm.append_right [k]))

/-- The square that a quotient rule divides by exists for denominators of rank zero only. -/
lemma mkSquare_eq_ok_iff {r square : Expr} :
    mkSquare r = .ok square ↔ square = power r (number (Literal.ofInt 2)) ∧ r.outer = [] := by
  rw [mkSquare, mkPower_eq_ok_iff]
  simp [number, outer]

/-- A numerator over the square of the denominator. -/
lemma Derived.ratio_square {l r num square : Expr} (h : Derived (product l r) k num)
    (hr : r.WellFormed) (hmark : r.hasDerivative = false) (hsquare : mkSquare r = .ok square)
    (hm : mkRatio num square = .ok m) : Derived (ratio l r) k m := by
  obtain ⟨rfl, hrank⟩ := mkSquare_eq_ok_iff.1 hsquare
  obtain ⟨rfl, hzero, hle⟩ := mkRatio_eq_ok_iff.1 hm
  refine ⟨⟨h.wellFormed, ⟨hr, ⟨List.nodup_nil, Nat.zero_le _⟩, hrank, rfl⟩, hzero, hle⟩, ?_, ?_⟩
  · simp [Expr.hasDerivative, h.hasDerivative, hmark, number]
  · have houter : (ratio num (power r (number (Literal.ofInt 2)))).outer = num.outer :=
      Index.symmetricDifference_nil _
    rw [houter]
    exact h.outer_perm

/-- What the rules make of a derivative. -/
theorem Derives.derived (h : Derives constant n k m) (hn : n.WellFormed)
    (hmark : n.hasDerivative = false) : Derived n k m := by
  -- Free labels are known up to their order only: the rules append `k` where it becomes free, and
  -- `congr` moves along the permutations.
  induction h with
  | zero _ hle hm =>
    obtain ⟨rfl, hnodup⟩ := mkBroadcast_eq_ok_iff.1 hm
    exact ⟨⟨hnodup, Nat.le_trans (Index.length_exclusive_le _) hle⟩, rfl, .refl _⟩
  | @leaf symbol labels k m _ hk hle hm =>
    obtain ⟨rfl, horder⟩ := mkLeaf_eq_ok_iff.1 hm
    exact ⟨⟨horder, hle⟩, rfl, (exclusive_exclusive_append hk).symm⟩
  | renameLeaf fresh hk hfresh _ ih =>
    refine (ih ?_ rfl).congr (Index.exclusive_rename hk hfresh)
    simpa [WellFormed, Index.length_rename] using hn
  | negate _ ih =>
    exact (ih hn hmark).negate.congr (.refl _)
  | sumLeft _ _ ih =>
    rw [Expr.hasDerivative, Bool.or_eq_false_iff] at hmark
    exact (ih hn.1 hmark.1).congr (.refl _)
  | sumRight _ _ ih =>
    rw [Expr.hasDerivative, Bool.or_eq_false_iff] at hmark
    exact (ih hn.2.1 hmark.2).congr hn.2.2.symm
  | sum _ _ hm ihl ihr =>
    rw [Expr.hasDerivative, Bool.or_eq_false_iff] at hmark
    obtain ⟨rfl, -⟩ := mkSum_eq_ok_iff.1 hm
    have hr := (ihr hn.2.1 hmark.2).congr hn.2.2.symm
    exact ((ihl hn.1 hmark.1).sum hr).congr (.refl _)
  | differenceLeft _ _ ih =>
    rw [Expr.hasDerivative, Bool.or_eq_false_iff] at hmark
    exact (ih hn.1 hmark.1).congr (.refl _)
  | differenceRight _ _ ih =>
    rw [Expr.hasDerivative, Bool.or_eq_false_iff] at hmark
    exact (ih hn.2.1 hmark.2).negate.congr hn.2.2.symm
  | difference _ _ hm ihl ihr =>
    rw [Expr.hasDerivative, Bool.or_eq_false_iff] at hmark
    obtain ⟨rfl, -⟩ := mkDifference_eq_ok_iff.1 hm
    have hr := (ihr hn.2.1 hmark.2).congr hn.2.2.symm
    exact ((ihl hn.1 hmark.1).difference hr).congr (.refl _)
  | productLeft _ _ _ hm ih =>
    rw [Expr.hasDerivative, Bool.or_eq_false_iff] at hmark
    exact (ih hn.1 hmark.1).product_left hn.1 hn.2.1 hmark.2 hm
  | productRight _ _ _ hm ih =>
    rw [Expr.hasDerivative, Bool.or_eq_false_iff] at hmark
    exact (ih hn.2.1 hmark.2).product_right hn.1 hn.2.1 hmark.1 hm
  | product _ _ _ ha hb hm ihl ihr =>
    rw [Expr.hasDerivative, Bool.or_eq_false_iff] at hmark
    obtain ⟨rfl, -⟩ := mkSum_eq_ok_iff.1 hm
    have hl := (ihl hn.1 hmark.1).product_left hn.1 hn.2.1 hmark.2 ha
    have hr := (ihr hn.2.1 hmark.2).product_right hn.1 hn.2.1 hmark.1 hb
    exact hl.sum hr
  | renameProduct fresh hk hfl hfr _ ih =>
    have hperm := symmetricDifference_bind_rename hn.1 hn.2.1 hk hfl hfr
    refine (ih ⟨⟨hn.1, Index.length_rename _ _ _⟩, ⟨hn.2.1, Index.length_rename _ _ _⟩, ?_⟩ hmark).congr
      hperm
    exact hperm.length_eq.trans_le hn.2.2
  | ratioLeft _ _ _ hm ih =>
    rw [Expr.hasDerivative, Bool.or_eq_false_iff] at hmark
    obtain ⟨rfl, hzero, hle⟩ := mkRatio_eq_ok_iff.1 hm
    have hl := (ih hn.1 hmark.1).product_left hn.1 hn.2.1 hmark.2 (mkProduct_eq_ok_iff.2 ⟨rfl, hle⟩)
    exact ⟨⟨hl.wellFormed.1, hn.2.1, hzero, hle⟩, hl.hasDerivative, hl.outer_perm⟩
  | ratioRight _ _ hb hsquare hm ih =>
    rw [Expr.hasDerivative, Bool.or_eq_false_iff] at hmark
    have hr := (ih hn.2.1 hmark.2).product_right hn.1 hn.2.1 hmark.1 hb
    exact hr.negate.ratio_square hn.2.1 hmark.2 hsquare hm
  | ratio _ _ ha hb hnum hsquare hm ihl ihr =>
    rw [Expr.hasDerivative, Bool.or_eq_false_iff] at hmark
    obtain ⟨rfl, -⟩ := mkDifference_eq_ok_iff.1 hnum
    have hl := (ihl hn.1 hmark.1).product_left hn.1 hn.2.1 hmark.2 ha
    have hr := (ihr hn.2.1 hmark.2).product_right hn.1 hn.2.1 hmark.1 hb
    exact (hl.difference hr).ratio_square hn.2.1 hmark.2 hsquare hm
  | renameRatio fresh hk hfl hfr _ ih =>
    have hperm := symmetricDifference_bind_rename hn.1 hn.2.1 hk hfl hfr
    refine (ih ⟨⟨hn.1, Index.length_rename _ _ _⟩, ⟨hn.2.1, Index.length_rename _ _ _⟩, rfl, ?_⟩
      hmark).congr hperm
    exact hperm.length_eq.trans_le hn.2.2.2
  | @power u q labels k du lower coefficient m _ hlower hcoefficient hm ih =>
    rw [Expr.hasDerivative, Bool.or_eq_false_iff] at hmark
    obtain ⟨rfl, hrank, -⟩ := mkPower_eq_ok_iff.1 hlower
    obtain ⟨rfl, hle⟩ := mkProduct_eq_ok_iff.1 hcoefficient
    have hnum : ∀ x, (number x).WellFormed := fun x => ⟨List.nodup_nil, Nat.zero_le _⟩
    have hcoefficient : (Expr.product (number (.exact q))
        (Expr.power u (number (.exact (q - 1))))).WellFormed :=
      ⟨hnum _, ⟨hn.1, hnum _, hrank, rfl⟩, hle⟩
    -- The factor of the inner derivative has rank zero, so the labels are those of the derivative.
    have hprod := (ih hn.1 hmark.1).product_right hcoefficient hn.1
      (by simp [Expr.hasDerivative, number, hmark.1]) hm
    exact hprod.congr (by simp [outer, number, hrank])
  | apply hslope _ hm ih =>
    have hu := ih hn.1 hmark
    have hwf := wellFormed_slope hn.1 hn.2 hslope
    rw [functionDerivative_eq_slope hslope] at hm
    have hprod := hu.product_right hwf hn.1 (hasDerivative_slope _ hmark) hm
    exact hprod.congr (by simp [outer, outer_slope _ hn.2, hn.2])
  | bind fresh hk hfresh _ hlabels hm ih =>
    have hd := ih hn.1 hmark
    obtain ⟨f, rfl⟩ := exists_relabelling hn.1.nodup_outer hn.2
    obtain rfl := bind_labels_eq hd.outer_perm hn.1.nodup_outer hlabels
    obtain ⟨rfl, hlen⟩ := mkBind_eq_ok_iff.1 hm
    refine ⟨⟨hd.wellFormed, hlen⟩, hd.hasDerivative, ?_⟩
    exact (Index.exclusive_perm (outer_map_perm hfresh hn.1.nodup_outer hd.outer_perm)).trans
      (exclusive_exclusive_append hk).symm
  | renameBind fresh hk hfresh _ ih =>
    refine (ih ⟨hn.1, ?_⟩ hmark).congr (Index.exclusive_rename hk hfresh)
    rw [Index.length_rename]
    exact hn.2

end Derived

end Indicial.Expr
