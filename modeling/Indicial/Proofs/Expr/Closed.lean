import Indicial.Expr.Derivative
import Indicial.Proofs.Expr.WellFormed

/-!
# What differentiation keeps

Differentiation makes expressions by the checked builders only, out of parts of the expression that it
is given. So a property that the builders keep and that passes to operands (`BuilderClosed`) is kept by
every derivative, as long as it is kept by what is done at marks (`BuilderClosed.differentiate`), and
by expanding, when longer marks keep it (`BuilderClosed.expand`).

To be well formed is such a property (`wellFormed_closed`), and so is to keep the rules of index
notation.
-/

namespace Indicial.Expr

section Expand

variable {constant : Constancy} {n l r : Expr}

/-- Every node but a mark is rebuilt over its expanded operands. -/
lemma expand_of_operands (h : n.operands? = some (l, r)) (hkind : n.kind ≠ .derivative) :
    expand constant n = (do rebuild n (← expand constant l) (← expand constant r)) := by
  cases n <;> cases h
  case derivative => exact absurd rfl hkind
  case negate =>
    rw [expand]
    cases expand constant l <;> rfl
  case apply f =>
    rw [expand]
    cases expand constant l <;> rfl
  case bind target =>
    rw [expand]
    cases expand constant l <;> rfl
  all_goals rw [expand]; rfl

/-- Leaves are expanded to themselves. -/
lemma expand_of_leaf (h : n.operands? = none) : expand constant n = .ok n := by
  cases n <;> cases h <;> rfl

end Expand

/-- The builders that differentiation uses keep a property, and operands inherit it. -/
structure BuilderClosed (P : Expr → Prop) : Prop where
  operands : ∀ {n l r}, n.operands? = some (l, r) → P n → P l ∧ P r
  number : ∀ q : Rat, P (number (.exact q))
  zero : ∀ {n k m}, zeroDerivative n k = .ok m → P m
  leaf : ∀ {symbol labels labels' m}, P (tensor symbol labels) → labels'.length ≤ Index.capacity →
    mkLeaf symbol labels' = .ok m → P m
  negate : ∀ {e m}, P e → mkNegate e = .ok m → P m
  apply : ∀ {f e m}, P e → mkApply f e = .ok m → P m
  bind : ∀ {e target m}, P e → mkBind e target = .ok m → P m
  sum : ∀ {l r m}, P l → P r → mkSum l r = .ok m → P m
  difference : ∀ {l r m}, P l → P r → mkDifference l r = .ok m → P m
  product : ∀ {l r m}, P l → P r → mkProduct l r = .ok m → P m
  ratio : ∀ {l r m}, P l → P r → mkRatio l r = .ok m → P m
  power : ∀ {l r m}, P l → P r → mkPower l r = .ok m → P m

/-- An operand of a rule and its derivative have a property. -/
structure Operand.Has (P : Expr → Prop) (u : Operand) : Prop where
  expr : P u.expr
  derivative : ∀ d, u.derivative () = .ok d → P d

namespace BuilderClosed

variable {P : Expr → Prop} {constant : Constancy} {n e l r m : Expr} {k : Label}
  {target along : Index} {u v : Operand} {du dl dr : Label → Except Fault Expr}
  {atMark : Expr → Index → Label → Except Fault Expr}

/-- The property holds of squares. -/
lemma square (hP : BuilderClosed P) (he : P e) (h : mkSquare e = .ok m) : P m :=
  hP.power he (hP.number _) h

/-! ### The rules of calculus -/

/-- The property holds of the outer derivative of a function. -/
lemma functionDerivative (hP : BuilderClosed P) {f : Func} (he : P e)
    (h : functionDerivative f e = .ok m) : P m := by
  cases f with
  | sin | exp | sinh | cosh => exact hP.apply he h
  | cos =>
    obtain ⟨x, hx, h⟩ := bind_eq_ok_iff.1 h
    exact hP.negate (hP.apply he hx) h
  | tan =>
    obtain ⟨x, hx, h⟩ := bind_eq_ok_iff.1 h
    obtain ⟨y, hy, h⟩ := bind_eq_ok_iff.1 h
    exact hP.sum (hP.number _) (hP.square (hP.apply he hx) hy) h
  | log => exact hP.ratio (hP.number _) he h
  | sqrt =>
    obtain ⟨x, hx, h⟩ := bind_eq_ok_iff.1 h
    obtain ⟨y, hy, h⟩ := bind_eq_ok_iff.1 h
    exact hP.ratio (hP.number _) (hP.product (hP.number _) (hP.apply he hx) hy) h
  | tanh =>
    obtain ⟨x, hx, h⟩ := bind_eq_ok_iff.1 h
    obtain ⟨y, hy, h⟩ := bind_eq_ok_iff.1 h
    exact hP.difference (hP.number _) (hP.square (hP.apply he hx) hy) h

/-- The property holds of what the rule for sums and differences makes. -/
lemma additiveRule (hP : BuilderClosed P) {isSum : Bool} (hu : u.Has P) (hv : v.Has P)
    (h : additiveRule isSum u v = .ok m) : P m := by
  unfold Expr.additiveRule at h
  split at h
  · obtain ⟨dv, hdv, h⟩ := bind_eq_ok_iff.1 h
    cases isSum with
    | true =>
      cases h
      exact hv.derivative _ hdv
    | false => exact hP.negate (hv.derivative _ hdv) h
  · split at h
    · exact hu.derivative _ h
    · obtain ⟨du, hdu, h⟩ := bind_eq_ok_iff.1 h
      obtain ⟨dv, hdv, h⟩ := bind_eq_ok_iff.1 h
      cases isSum with
      | true => exact hP.sum (hu.derivative _ hdu) (hv.derivative _ hdv) h
      | false => exact hP.difference (hu.derivative _ hdu) (hv.derivative _ hdv) h

/-- The property holds of what the product rule makes. -/
lemma productRule (hP : BuilderClosed P) (hu : u.Has P) (hv : v.Has P)
    (h : productRule u v = .ok m) : P m := by
  unfold Expr.productRule at h
  split at h
  · obtain ⟨dv, hdv, h⟩ := bind_eq_ok_iff.1 h
    exact hP.product hu.expr (hv.derivative _ hdv) h
  · split at h
    · obtain ⟨du, hdu, h⟩ := bind_eq_ok_iff.1 h
      exact hP.product (hu.derivative _ hdu) hv.expr h
    · obtain ⟨du, hdu, h⟩ := bind_eq_ok_iff.1 h
      obtain ⟨a, ha, h⟩ := bind_eq_ok_iff.1 h
      obtain ⟨dv, hdv, h⟩ := bind_eq_ok_iff.1 h
      obtain ⟨b, hb, h⟩ := bind_eq_ok_iff.1 h
      exact hP.sum (hP.product (hu.derivative _ hdu) hv.expr ha)
        (hP.product hu.expr (hv.derivative _ hdv) hb) h

/-- The property holds of what the quotient rule makes. -/
lemma quotientRule (hP : BuilderClosed P) (hu : u.Has P) (hv : v.Has P)
    (h : quotientRule u v = .ok m) : P m := by
  unfold Expr.quotientRule at h
  split at h
  · obtain ⟨du, hdu, h⟩ := bind_eq_ok_iff.1 h
    exact hP.ratio (hu.derivative _ hdu) hv.expr h
  · split at h
    · obtain ⟨dv, hdv, h⟩ := bind_eq_ok_iff.1 h
      obtain ⟨b, hb, h⟩ := bind_eq_ok_iff.1 h
      obtain ⟨num, hnum, h⟩ := bind_eq_ok_iff.1 h
      obtain ⟨square, hsquare, h⟩ := bind_eq_ok_iff.1 h
      have hb := hP.product hu.expr (hv.derivative _ hdv) hb
      exact hP.ratio (hP.negate hb hnum) (hP.square hv.expr hsquare) h
    · obtain ⟨du, hdu, h⟩ := bind_eq_ok_iff.1 h
      obtain ⟨a, ha, h⟩ := bind_eq_ok_iff.1 h
      obtain ⟨dv, hdv, h⟩ := bind_eq_ok_iff.1 h
      obtain ⟨b, hb, h⟩ := bind_eq_ok_iff.1 h
      obtain ⟨num, hnum, h⟩ := bind_eq_ok_iff.1 h
      obtain ⟨square, hsquare, h⟩ := bind_eq_ok_iff.1 h
      have ha := hP.product (hu.derivative _ hdu) hv.expr ha
      have hb := hP.product hu.expr (hv.derivative _ hdv) hb
      exact hP.ratio (hP.difference ha hb hnum) (hP.square hv.expr hsquare) h

/-! ### Relabellings and renamed factors -/

/-- The property holds of what the rule for bindings makes. -/
lemma bindRule (hP : BuilderClosed P) (hdu : ∀ f d, du f = .ok d → P d)
    (h : bindRule e target k du = .ok m) : P m := by
  obtain ⟨fresh, -, h⟩ := bind_eq_ok_iff.1 h
  obtain ⟨d, hd, h⟩ := bind_eq_ok_iff.1 h
  obtain ⟨labels, -, h⟩ := bind_eq_ok_iff.1 h
  exact hP.bind (hdu fresh d hd) h

/-- A summed operand whose label is renamed has the property, and so has its derivative. -/
lemma renamedOperand (hP : BuilderClosed P) (he : P (.bind e target))
    (hdu : ∀ f d, du f = .ok d → P d) : (renamedOperand constant e target k du).Has P := by
  refine ⟨he, fun d hd => ?_⟩
  simp only [Expr.renamedOperand] at hd
  split at hd
  · exact hP.zero hd
  · exact hP.bindRule hdu hd

/-- The two factors have the property, and so have their derivatives. -/
lemma factors (hP : BuilderClosed P) (hl : P l) (hr : P r) (hdl : ∀ f d, dl f = .ok d → P d)
    (hdr : ∀ f d, dr f = .ok d → P d) (h : factors constant n l r k dl dr = .ok (u, v)) :
    u.Has P ∧ v.Has P := by
  unfold Expr.factors at h
  split at h
  · obtain ⟨fresh, -, h⟩ := bind_eq_ok_iff.1 h
    obtain ⟨l', hl', h⟩ := bind_eq_ok_iff.1 h
    obtain ⟨r', hr', h⟩ := bind_eq_ok_iff.1 h
    obtain ⟨_, -, h⟩ := bind_eq_ok_iff.1 h
    have hl := hP.bind hl hl'
    have hr := hP.bind hr hr'
    obtain ⟨rfl, -⟩ := mkBind_eq_ok_iff.1 hl'
    obtain ⟨rfl, -⟩ := mkBind_eq_ok_iff.1 hr'
    cases h
    exact ⟨hP.renamedOperand hl hdl, hP.renamedOperand hr hdr⟩
  · cases h
    exact ⟨⟨hl, hdl k⟩, ⟨hr, hdr k⟩⟩

/-! ### Derivatives -/

/-- A derivative along one label keeps the property, if what is done at marks does. -/
theorem differentiate (hP : BuilderClosed P)
    (hmark : ∀ e along k d, P (.derivative e along) → atMark e along k = .ok d → P d) (hn : P n)
    (h : differentiate constant atMark n k = .ok m) : P m := by
  induction n generalizing k m with
  | literal | delta | epsilon =>
    exact hP.zero (by simpa [Expr.differentiate, dependsOnly] using h)
  | scalar =>
    rw [Expr.differentiate] at h
    split at h
    · exact hP.zero h
    · cases h
  | tensor =>
    rw [Expr.differentiate] at h
    split at h
    · exact hP.zero h
    · dsimp only at h
      split at h
      · obtain ⟨fresh, -, h⟩ := bind_eq_ok_iff.1 h
        rw [pure_eq_ok, ok_bind] at h
        obtain ⟨whole, hwhole, h⟩ := bind_eq_ok_iff.1 h
        obtain ⟨rfl, hle⟩ := Index.concat_eq_ok_iff.1 hwhole
        exact hP.leaf hn hle h
      · rw [pure_eq_ok, ok_bind] at h
        obtain ⟨whole, hwhole, h⟩ := bind_eq_ok_iff.1 h
        obtain ⟨rfl, hle⟩ := Index.concat_eq_ok_iff.1 hwhole
        exact hP.leaf hn hle h
  | derivative e along =>
    rw [Expr.differentiate] at h
    split at h
    · exact hP.zero h
    · exact hmark e along k m hn h
  | negate e ih =>
    rw [Expr.differentiate] at h
    split at h
    · exact hP.zero h
    · obtain ⟨d, hd, h⟩ := bind_eq_ok_iff.1 h
      exact hP.negate (ih (hP.operands rfl hn).1 hd) h
  | apply f e ih =>
    obtain ⟨he, -⟩ := hP.operands rfl hn
    rw [Expr.differentiate] at h
    split at h
    · exact hP.zero h
    · obtain ⟨slope, hslope, h⟩ := bind_eq_ok_iff.1 h
      obtain ⟨d, hd, h⟩ := bind_eq_ok_iff.1 h
      exact hP.product (hP.functionDerivative he hslope) (ih he hd) h
  | bind e target ih =>
    obtain ⟨he, -⟩ := hP.operands rfl hn
    rw [Expr.differentiate] at h
    split at h
    · exact hP.zero h
    · split at h
      · obtain ⟨fresh, -, h⟩ := bind_eq_ok_iff.1 h
        obtain ⟨_, -, h⟩ := bind_eq_ok_iff.1 h
        exact hP.bindRule (fun _ _ => ih he) h
      · exact hP.bindRule (fun _ _ => ih he) h
  | sum l r ihl ihr | difference l r ihl ihr =>
    obtain ⟨hl, hr⟩ := hP.operands rfl hn
    rw [Expr.differentiate] at h
    split at h
    · exact hP.zero h
    · exact hP.additiveRule ⟨hl, fun _ => ihl hl⟩ ⟨hr, fun _ => ihr hr⟩ h
  | product l r ihl ihr =>
    obtain ⟨hl, hr⟩ := hP.operands rfl hn
    rw [Expr.differentiate] at h
    split at h
    · exact hP.zero h
    · obtain ⟨⟨u, v⟩, huv, h⟩ := bind_eq_ok_iff.1 h
      obtain ⟨hu, hv⟩ := hP.factors hl hr (fun _ _ => ihl hl) (fun _ _ => ihr hr) huv
      exact hP.productRule hu hv h
  | ratio l r ihl ihr =>
    obtain ⟨hl, hr⟩ := hP.operands rfl hn
    rw [Expr.differentiate] at h
    split at h
    · exact hP.zero h
    · obtain ⟨⟨u, v⟩, huv, h⟩ := bind_eq_ok_iff.1 h
      obtain ⟨hu, hv⟩ := hP.factors hl hr (fun _ _ => ihl hl) (fun _ _ => ihr hr) huv
      exact hP.quotientRule hu hv h
  | power b x ihb _ =>
    obtain ⟨hb, -⟩ := hP.operands rfl hn
    unfold Expr.differentiate at h
    split at h
    · exact hP.zero h
    · dsimp only at h
      split at h
      · obtain ⟨lower, hlower, h⟩ := bind_eq_ok_iff.1 h
        obtain ⟨coefficient, hcoefficient, h⟩ := bind_eq_ok_iff.1 h
        obtain ⟨d, hd, h⟩ := bind_eq_ok_iff.1 h
        have hlower := hP.power hb (hP.number _) hlower
        exact hP.product (hP.product (hP.number _) hlower hcoefficient) (ihb hb hd) h
      · cases h

/-- The property holds of the derivative of an expression without marks. -/
lemma differentiatePlain (hP : BuilderClosed P)
    (hlonger : ∀ e along m, P e → mkDerivative e along = .ok m → P m) (he : P e)
    (h : differentiatePlain constant e along = .ok m) : P m :=
  foldlM_preserves
    (fun _ _ _ _ he h => hP.differentiate (fun _ _ _ _ hmark => hlonger _ _ _ hmark) he h) he h

/-- Every node but a leaf is built anew when marks are expanded. -/
lemma rebuild (hP : BuilderClosed P) (hkind : n.kind ≠ .derivative) (hn : P n) (hl : P l)
    (hr : P r) (h : rebuild n l r = .ok m) : P m := by
  cases n with
  | derivative => exact absurd rfl hkind
  | negate => exact hP.negate hl h
  | apply => exact hP.apply hl h
  | bind =>
    obtain ⟨labels, -, h⟩ := bind_eq_ok_iff.1 h
    exact hP.bind hl h
  | sum => exact hP.sum hl hr h
  | difference => exact hP.difference hl hr h
  | product => exact hP.product hl hr h
  | ratio => exact hP.ratio hl hr h
  | power => exact hP.power hl hr h
  | _ =>
    cases h
    exact hn

/-- Expanding keeps the property, if longer marks have it. -/
theorem expand (hP : BuilderClosed P)
    (hlonger : ∀ e along m, P e → mkDerivative e along = .ok m → P m) (he : P e)
    (h : expand constant e = .ok m) : P m := by
  induction e using operandsInduction generalizing m with
  | leaf n hleaf =>
    rw [expand_of_leaf hleaf] at h
    cases h
    exact he
  | node n l r hops ihl ihr =>
    obtain ⟨hl, hr⟩ := hP.operands hops he
    -- A mark is not rebuilt: what its operand is expanded to is differentiated.
    by_cases hkind : n.kind = .derivative
    · obtain ⟨along, rfl⟩ : ∃ along, n = .derivative l along := by
        cases n <;> cases hops <;> first | exact ⟨_, rfl⟩ | cases hkind
      obtain ⟨d, hd, h⟩ := bind_eq_ok_iff.1 h
      exact hP.differentiatePlain hlonger (ihl hl hd) h
    · rw [expand_of_operands hops hkind] at h
      obtain ⟨l', hl', h⟩ := bind_eq_ok_iff.1 h
      obtain ⟨r', hr', h⟩ := bind_eq_ok_iff.1 h
      exact hP.rebuild hkind he (ihl hl hl') (ihr hr hr') h

/-- The derivative of a marked expression has the property, whether it is a longer mark or the
derivative of what the mark is expanded to. -/
lemma markDerivative (hP : BuilderClosed P)
    (hlonger : ∀ e along m, P e → mkDerivative e along = .ok m → P m) (he : P (.derivative e along))
    (h : markDerivative constant e along k = .ok m) : P m := by
  unfold Expr.markDerivative at h
  split at h
  · obtain ⟨d, hd, h⟩ := bind_eq_ok_iff.1 h
    exact hP.differentiate (fun _ _ _ _ hmark => hlonger _ _ _ hmark) (hP.expand hlonger he hd) h
  · exact hlonger _ _ _ he h

/-- One derivative of an expression that may hold marks. -/
lemma diff (hP : BuilderClosed P)
    (hlonger : ∀ e along m, P e → mkDerivative e along = .ok m → P m) (he : P e)
    (h : diff constant e k = .ok m) : P m :=
  hP.differentiate (fun _ _ _ _ hmark => hP.markDerivative hlonger hmark) he h

/-- Derivatives along several labels of an expression that may hold marks. -/
lemma diffAlong (hP : BuilderClosed P)
    (hlonger : ∀ e along m, P e → mkDerivative e along = .ok m → P m) (he : P e)
    (h : diffAlong constant e along = .ok m) : P m :=
  foldlM_preserves (fun _ _ _ _ he h => hP.diff hlonger he h) he h

end BuilderClosed

/-! ### Well-formed expressions -/

section WellFormed

variable {constant : Constancy} {e m : Expr} {along : Index} {k : Label}

/-- The builders keep well-formedness. -/
lemma wellFormed_closed : BuilderClosed WellFormed where
  operands := wellFormed_operands
  number _ := ⟨List.nodup_nil, Nat.zero_le _⟩
  zero h := by
    obtain ⟨labels, hlabels, h⟩ := bind_eq_ok_iff.1 h
    obtain ⟨rfl, hle⟩ := Index.concat_eq_ok_iff.1 hlabels
    exact (Built.broadcast (Nat.le_trans (Index.length_exclusive_le _) hle) h).wellFormed
  leaf _ hle h := (Built.leaf hle h).wellFormed
  negate he h := (Built.negate he.built h).wellFormed
  apply he h := (Built.apply he.built h).wellFormed
  bind he h :=
    have hle := Nat.le_trans (Nat.le_of_eq (mkBind_eq_ok_iff.1 h).2) he.length_outer_le
    (Built.bind hle he.built h).wellFormed
  sum hl hr h := (Built.sum hl.built hr.built h).wellFormed
  difference hl hr h := (Built.difference hl.built hr.built h).wellFormed
  product hl hr h := (Built.product hl.built hr.built h).wellFormed
  ratio hl hr h := (Built.ratio hl.built hr.built h).wellFormed
  power hl hr h := (Built.power hl.built hr.built h).wellFormed

/-- A mark on a well-formed expression is well-formed. -/
lemma WellFormed.mkDerivative (he : e.WellFormed) (h : mkDerivative e along = .ok m) :
    m.WellFormed := by
  have hle : along.length ≤ Index.capacity := by
    obtain ⟨-, ⟨_, _, -, -, hle⟩ | ⟨-, -, hle⟩⟩ := mkDerivative_of_ok h
    · simp only [List.length_append] at hle
      omega
    · simp only [List.length_append] at hle
      omega
  exact (Built.derivative hle he.built h).wellFormed

/-- The derivative of a well-formed expression along one label is well formed, marks included. -/
theorem WellFormed.diff (he : e.WellFormed) (h : diff constant e k = .ok m) : m.WellFormed :=
  wellFormed_closed.diff (fun _ _ _ => WellFormed.mkDerivative) he h

end WellFormed

end Indicial.Expr
