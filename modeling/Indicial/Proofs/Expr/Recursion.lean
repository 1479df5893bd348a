import Indicial.Proofs.Expr.Closed
import Indicial.Proofs.Expr.Expand

/-!
# Differentiation by direct recursion

Two rules of differentiation go on with an expression that is no part of the one they are given. A node
that sums over the label of the direction is replaced by one in which this label is renamed, and its
operands are wrapped in relabellings; a mark that already holds the label is replaced by all that it is
expanded to. No shape of the expression bounds this recursion. It is therefore written as the course that
each of its functions takes from call to call (`Task.course`), and it ends if the tree of these calls is
finite (`Course.Ends`).

It always ends, and with the result of the structural recursion (`differentiation_ends`). A renamed label
is not summed at the node again (`not_mem_contracted_renameSummed`), so one renaming is followed by one
step to the operands. What a mark is expanded to has no marks, and its derivatives call for no expanding.
-/

namespace Indicial.Expr

/-! ### The recursion -/

/-- The node with the label `k`, over which it sums, renamed to one that it does not hold. Only these
four kinds of nodes sum over labels and may vary. -/
def renameSummed (n : Expr) (k : Label) : Except Fault Expr := do
  let fresh ← freshLabel n k
  match n with
  | product l r | ratio l r => do
    let l' ← mkBind l (Index.rename l.outer k fresh)
    let r' ← mkBind r (Index.rename r.outer k fresh)
    rebuild n l' r'
  | tensor symbol labels => mkLeaf symbol (Index.rename labels k fresh)
  | bind e target => mkBind e (Index.rename target k fresh)
  | n => .error (.derivativeOfNode (Bytes.ofString n.kind.name) n.toBytes)

/-- An operand whose derivative is known. -/
def operand (constant : Constancy) (e : Expr) (d : Except Fault Expr) : Operand :=
  ⟨e, e.dependsOnly constant, fun _ => d⟩

/-- The three functions of the recursion, with their arguments. -/
inductive Task
  | diff (n : Expr) (k : Label)
  | along (n : Expr) (along : Index)
  | expand (n : Expr)

/-- Whether a task differentiates; the others expand marks. -/
def Task.Differentiates : Task → Prop
  | diff .. | along .. => True
  | expand _ => False

/-- The course of a function: it is done, or it calls and goes on with the result of the call. -/
inductive Course
  | done (x : Except Fault Expr)
  | call (t : Task) (next : Except Fault Expr → Course)

/-- A call whose failure is the failure of the whole. -/
def Course.andThen (t : Task) (next : Expr → Course) : Course :=
  .call t fun
    | .ok d => next d
    | .error f => .done (.error f)

/-- The derivative of a node that varies and does not sum over the direction. Both operands of a rule are
differentiated before it joins them, so that every call is made which the rule may ask for. -/
def nodeCourse (constant : Constancy) (n : Expr) (k : Label) : Course :=
  match n with
  | tensor symbol labels => .done (do mkLeaf symbol (← Index.concat labels [k]))
  | sum l r => .call (.diff l k) fun dl => .call (.diff r k) fun dr =>
      .done (additiveRule true (operand constant l dl) (operand constant r dr))
  | difference l r => .call (.diff l k) fun dl => .call (.diff r k) fun dr =>
      .done (additiveRule false (operand constant l dl) (operand constant r dr))
  | product l r => .call (.diff l k) fun dl => .call (.diff r k) fun dr =>
      .done (productRule (operand constant l dl) (operand constant r dr))
  | ratio l r => .call (.diff l k) fun dl => .call (.diff r k) fun dr =>
      .done (quotientRule (operand constant l dl) (operand constant r dr))
  | negate e => .call (.diff e k) fun d => .done (do mkNegate (← d))
  | power u e =>
    match e with
    | literal (.exact q) _ => .call (.diff u k) fun d => .done do
        let lower ← mkPower u (number (.exact (q - 1)))
        let coefficient ← mkProduct (number (.exact q)) lower
        mkProduct coefficient (← d)
    | e => .done (.error (.derivativeOfPower e.toBytes))
  | apply f u => .call (.diff u k) fun d => .done do
      let slope ← functionDerivative f u
      mkProduct slope (← d)
  | bind e target =>
    match freshLabel (bind e target) k with
    | .ok fresh => .call (.diff e fresh) fun d => .done (bindRule e target k fun _ => d)
    | .error f => .done (.error f)
  | derivative e along =>
    if (Index.repeated (e.outer ++ along)).contains k then
      .andThen (.expand (derivative e along)) fun d => .call (.diff d k) .done
    else .done (extendMark e along k)
  | n => .done (.error (.derivativeOfNode (Bytes.ofString n.kind.name) n.toBytes))

/-- The derivative along one label. -/
def diffCourse (constant : Constancy) (n : Expr) (k : Label) : Course :=
  if n.dependsOnly constant then .done (zeroDerivative n k)
  else if n.contracted.contains k then
    match renameSummed n k with
    | .ok m => .call (.diff m k) .done
    | .error f => .done (.error f)
  else nodeCourse constant n k

/-- The derivative along each label in turn. -/
def alongCourse (n : Expr) : Index → Course
  | [] => .done (.ok n)
  | k :: rest => .andThen (.diff n k) fun d => .call (.along d rest) .done

/-- Every mark replaced by the derivative that it stands for. -/
def expandCourse (n : Expr) : Course :=
  match n with
  | derivative e along => .andThen (.expand e) fun d => .call (.along d along) .done
  | negate e | apply _ e | bind e _ => .andThen (.expand e) fun d => .done (rebuild n d d)
  | sum l r | difference l r | product l r | ratio l r | power l r =>
    .andThen (.expand l) fun dl => .andThen (.expand r) fun dr => .done (rebuild n dl dr)
  | leaf => .done (.ok leaf)

/-- The course of a task. -/
def Task.course (constant : Constancy) : Task → Course
  | diff n k => diffCourse constant n k
  | along n labels => alongCourse n labels
  | expand n => expandCourse n

/-- The course ends with a result, after finitely many calls in all, each of an allowed task. -/
inductive Course.Ends (constant : Constancy) (allowed : Task → Prop) :
    Course → Except Fault Expr → Prop
  | done {x} : Ends constant allowed (.done x) x
  | call {t next x y} (ht : allowed t) (hcall : Ends constant allowed (t.course constant) x)
      (hnext : Ends constant allowed (next x) y) : Ends constant allowed (.call t next) y

/-- The task ends with a result, after finitely many calls in all, each of an allowed task. -/
def Task.Ends (constant : Constancy) (allowed : Task → Prop) (t : Task) (x : Except Fault Expr) : Prop :=
  (t.course constant).Ends constant allowed x

section Ends

variable {constant : Constancy} {allowed wider : Task → Prop} {c : Course} {t : Task}
  {x y : Except Fault Expr} {next : Expr → Course} {g : Expr → Except Fault Expr}

/-- A course ends in one way only, whatever tasks are allowed. -/
lemma Course.Ends.unique (hx : c.Ends constant allowed x) (hy : c.Ends constant wider y) : x = y := by
  induction hx generalizing y with
  | done =>
    cases hy
    rfl
  | call ht hcall hnext ihcall ihnext =>
    cases hy with
    | call ht' hcall' hnext' =>
      obtain rfl := ihcall hcall'
      exact ihnext hnext'

/-- A call and what follows it end when both do. -/
lemma Course.Ends.andThen (ht : allowed t) (hcall : t.Ends constant allowed x)
    (hnext : ∀ d, x = .ok d → (next d).Ends constant allowed (g d)) :
    (Course.andThen t next).Ends constant allowed (x >>= g) := by
  cases x with
  | ok d => exact .call ht hcall (hnext d rfl)
  | error f => exact .call ht hcall .done

/-- The one result of a task that is known to end. -/
lemma Task.Ends.iff (h : t.Ends constant allowed x) : t.Ends constant allowed y ↔ y = x :=
  ⟨fun hy => hy.unique h, fun hy => hy ▸ h⟩

end Ends

/-! ### Renaming once is enough -/

section Rename

variable {constant : Constancy} {n m e : Expr} {k fresh : Label} {target : Index}

/-- A renamed label is not repeated any more. -/
lemma not_mem_repeated_rename (target : Index) (hne : fresh ≠ k) :
    k ∉ Index.repeated (Index.rename target k fresh) := by
  rw [Index.mem_repeated, List.count_eq_zero.2 (Index.not_mem_rename _ hne)]
  omega

/-- A renamed label is not free any more. -/
lemma not_mem_outer_bind_rename (e : Expr) (target : Index) (hne : fresh ≠ k) :
    k ∉ (bind e (Index.rename target k fresh)).outer := fun hk =>
  Index.not_mem_rename _ hne (Index.mem_of_mem_exclusive hk)

/-- The node with a renamed label does not sum over the old one. -/
theorem not_mem_contracted_renameSummed (h : renameSummed n k = .ok m) : k ∉ m.contracted := by
  obtain ⟨fresh, hfresh, h⟩ := bind_eq_ok_iff.1 h
  obtain ⟨hne, -⟩ := not_mem_of_freshLabel hfresh
  cases n with
  | product l r =>
    obtain ⟨l', hl', h⟩ := bind_eq_ok_iff.1 h
    obtain ⟨r', hr', h⟩ := bind_eq_ok_iff.1 h
    obtain ⟨rfl, -⟩ := mkBind_eq_ok_iff.1 hl'
    obtain ⟨rfl, -⟩ := mkProduct_eq_ok_iff.1 h
    exact fun hk => not_mem_outer_bind_rename l _ hne (Index.mem_intersect.1 hk).1
  | ratio l r =>
    obtain ⟨l', hl', h⟩ := bind_eq_ok_iff.1 h
    obtain ⟨r', hr', h⟩ := bind_eq_ok_iff.1 h
    obtain ⟨rfl, -⟩ := mkBind_eq_ok_iff.1 hl'
    obtain ⟨rfl, -⟩ := mkRatio_eq_ok_iff.1 h
    exact fun hk => not_mem_outer_bind_rename l _ hne (Index.mem_intersect.1 hk).1
  | tensor symbol labels =>
    obtain ⟨rfl, -⟩ := mkLeaf_eq_ok_iff.1 h
    exact not_mem_repeated_rename labels hne
  | bind e target =>
    obtain ⟨rfl, -⟩ := mkBind_eq_ok_iff.1 h
    exact not_mem_repeated_rename target hne
  | _ => cases h

end Rename

/-! ### Derivatives -/

section Derivatives

variable {constant : Constancy} {allowed : Task → Prop} {n m e l r : Expr} {k fresh : Label}
  {target along : Index} {atMark : Expr → Index → Label → Except Fault Expr}
  {du dl dr : Label → Except Fault Expr} {x : Except Fault Expr}

/-- Differentiating what is constant ends at once. -/
lemma ends_of_constant (hn : n.dependsOnly constant = true) :
    (Task.diff n k).Ends constant allowed (zeroDerivative n k) := by
  rw [Task.Ends, Task.course, diffCourse, if_pos hn]
  exact .done

/-- Differentiating a node ends when its rule does, if the direction is not summed. -/
lemma ends_of_node (hn : n.dependsOnly constant = false) (hk : k ∉ n.contracted)
    (h : (nodeCourse constant n k).Ends constant allowed x) :
    (Task.diff n k).Ends constant allowed x := by
  rwa [Task.Ends, Task.course, diffCourse, if_neg (by simp [hn]), if_neg (by simpa using hk)]

/-- A constant expression has the derivative zero in both forms. -/
lemma ends_of_varying
    (h : n.dependsOnly constant = false →
      (Task.diff n k).Ends constant allowed (differentiate constant atMark n k)) :
    (Task.diff n k).Ends constant allowed (differentiate constant atMark n k) := by
  by_cases hn : n.dependsOnly constant = true
  · have hzero : differentiate constant atMark n k = zeroDerivative n k := by
      cases n <;> rw [differentiate.eq_def, if_pos hn]
    rw [hzero]
    exact ends_of_constant hn
  · exact h (by simpa using hn)

/-- Both forms rename the factors of a node that sums over the direction, or fail alike. -/
lemma renameSummed_factors (constant : Constancy) (dl dr : Label → Except Fault Expr)
    (hn : n = product l r ∨ n = ratio l r) (hk : k ∈ n.contracted) :
    (∃ f, renameSummed n k = .error f ∧ factors constant n l r k dl dr = .error f) ∨
      ∃ fresh m, fresh ≠ k ∧ renameSummed n k = .ok m ∧
        rebuild n (bind l (Index.rename l.outer k fresh)) (bind r (Index.rename r.outer k fresh))
          = .ok m ∧
        factors constant n l r k dl dr
          = .ok (renamedOperand constant l (Index.rename l.outer k fresh) k dl,
              renamedOperand constant r (Index.rename r.outer k fresh) k dr) := by
  have hk' : n.contracted.contains k = true := by simpa using hk
  have hbind : ∀ (e : Expr) fresh, mkBind e (Index.rename e.outer k fresh)
      = .ok (bind e (Index.rename e.outer k fresh)) := fun e fresh =>
    mkBind_eq_ok_iff.2 ⟨rfl, Index.length_rename _ _ _⟩
  have hrename : renameSummed n k = (do
      let fresh ← freshLabel n k
      let l' ← mkBind l (Index.rename l.outer k fresh)
      let r' ← mkBind r (Index.rename r.outer k fresh)
      rebuild n l' r') := by
    rcases hn with rfl | rfl <;> rfl
  rw [hrename, factors, if_pos hk']
  cases hfresh : freshLabel n k with
  | error f => exact .inl ⟨f, rfl, rfl⟩
  | ok fresh =>
    simp only [ok_bind, hbind]
    cases hm : rebuild n (bind l (Index.rename l.outer k fresh))
        (bind r (Index.rename r.outer k fresh)) with
    | error f => exact .inl ⟨f, rfl, rfl⟩
    | ok m => exact .inr ⟨fresh, m, (not_mem_of_freshLabel hfresh).1, rfl, hm, rfl⟩

/-- If a summed label cannot be renamed, differentiating ends with that fault. -/
lemma ends_of_not_renamed {f : Fault} (hn : n.dependsOnly constant = false) (hk : k ∈ n.contracted)
    (hf : renameSummed n k = .error f) : (Task.diff n k).Ends constant allowed (.error f) := by
  rw [Task.Ends, Task.course, diffCourse, if_neg (by simp [hn]), if_pos (by simpa using hk), hf]
  exact .done

variable (hallowed : ∀ t : Task, t.Differentiates → allowed t)

include hallowed

/-- A node that sums over the direction gives way to the one with this label renamed. -/
lemma ends_of_renamed (hn : n.dependsOnly constant = false) (hk : k ∈ n.contracted)
    (hm : renameSummed n k = .ok m) (h : (Task.diff m k).Ends constant allowed x) :
    (Task.diff n k).Ends constant allowed x := by
  rw [Task.Ends, Task.course, diffCourse, if_neg (by simp [hn]), if_pos (by simpa using hk), hm]
  exact .call (hallowed _ trivial) h .done

/-- A relabelling that does not sum over the direction. -/
lemma ends_bind (hk : k ∉ Index.repeated target)
    (he : ∀ c, (Task.diff e c).Ends constant allowed (du c)) :
    (Task.diff (bind e target) k).Ends constant allowed
      ((renamedOperand constant e target k du).derivative ()) := by
  rw [renamedOperand]
  by_cases hc : e.dependsOnly constant = true
  · simp only [if_pos hc]
    exact ends_of_constant hc
  · simp only [if_neg hc]
    apply ends_of_node (by simpa [dependsOnly] using hc) hk
    rw [nodeCourse, bindRule]
    cases hfresh : freshLabel (bind e target) k with
    | ok fresh =>
      refine .call (hallowed _ trivial) (he fresh) ?_
      rw [bindRule, hfresh]
      exact .done
    | error f => exact .done

/-- Products and ratios pass to their factors, after one renaming if they sum over the direction. -/
lemma ends_factors {make : Expr → Expr → Expr} {rule : Operand → Operand → Except Fault Expr}
    (hmake : (make = product ∧ rule = productRule) ∨ (make = ratio ∧ rule = quotientRule))
    (hn : (make l r).dependsOnly constant = false)
    (hl : ∀ c, (Task.diff l c).Ends constant allowed (dl c))
    (hr : ∀ c, (Task.diff r c).Ends constant allowed (dr c)) :
    (Task.diff (make l r) k).Ends constant allowed (do
      let (u, v) ← factors constant (make l r) l r k dl dr
      rule u v) := by
  have hfree : ∀ l r dl dr, (make l r).dependsOnly constant = false → k ∉ (make l r).contracted →
      (Task.diff l k).Ends constant allowed dl → (Task.diff r k).Ends constant allowed dr →
      (Task.diff (make l r) k).Ends constant allowed
        (rule (operand constant l dl) (operand constant r dr)) := by
    intro l r dl dr hc hk hl hr
    apply ends_of_node hc hk
    rcases hmake with ⟨rfl, rfl⟩ | ⟨rfl, rfl⟩
    all_goals exact .call (hallowed _ trivial) hl (.call (hallowed _ trivial) hr .done)
  by_cases hk : k ∈ (make l r).contracted
  · have hnode : make l r = product l r ∨ make l r = ratio l r := by
      rcases hmake with ⟨rfl, -⟩ | ⟨rfl, -⟩
      exacts [.inl rfl, .inr rfl]
    rcases renameSummed_factors constant dl dr hnode hk with
      ⟨f, hf, hfactors⟩ | ⟨fresh, m, hne, hm, hrebuild, hfactors⟩
    · rw [hfactors]
      exact ends_of_not_renamed hn hk hf
    · obtain rfl : m = make (bind l (Index.rename l.outer k fresh))
          (bind r (Index.rename r.outer k fresh)) := by
        rcases hmake with ⟨rfl, -⟩ | ⟨rfl, -⟩
        exacts [(mkProduct_eq_ok_iff.1 hrebuild).1, (mkRatio_eq_ok_iff.1 hrebuild).1]
      have hc : (make (bind l (Index.rename l.outer k fresh))
          (bind r (Index.rename r.outer k fresh))).dependsOnly constant = false := by
        rcases hmake with ⟨rfl, -⟩ | ⟨rfl, -⟩ <;> exact hn
      rw [hfactors, ok_bind]
      exact ends_of_renamed hallowed hn hk hm
        (hfree _ _ _ _ hc (not_mem_contracted_renameSummed hm)
          (ends_bind hallowed (not_mem_repeated_rename _ hne) hl)
          (ends_bind hallowed (not_mem_repeated_rename _ hne) hr))
  · rw [factors, if_neg (by simpa using hk)]
    exact hfree l r _ _ hn hk (hl k) (hr k)

/-- Differentiating a tensor ends at once. -/
lemma ends_tensor {symbol : Tensor} {labels : Index} (hc : constant symbol = false)
    (hle : symbol.order ≤ labels.length) :
    (Task.diff (tensor symbol labels) k).Ends constant allowed
      (differentiate constant atMark (tensor symbol labels) k) := by
  have hfree : ∀ labels, k ∉ Index.repeated labels →
      (Task.diff (tensor symbol labels) k).Ends constant allowed
        (do mkLeaf symbol (← Index.concat labels [k])) := fun labels hk => ends_of_node hc hk .done
  have hn : (tensor symbol labels).dependsOnly constant = false := hc
  rw [differentiate, if_neg (by simp [hn])]
  by_cases hk : k ∈ Index.repeated labels
  · simp only [List.contains_iff_mem.2 hk, ite_true]
    cases hfresh : freshLabel (tensor symbol labels) k with
    | error f => exact ends_of_not_renamed hn hk (by rw [renameSummed, hfresh]; rfl)
    | ok fresh =>
      have hne := (not_mem_of_freshLabel hfresh).1
      have hleaf : renameSummed (tensor symbol labels) k
          = .ok (tensor symbol (Index.rename labels k fresh)) := by
        rw [renameSummed, hfresh]
        exact mkLeaf_eq_ok_iff.2 ⟨rfl, hle.trans_eq (Index.length_rename _ _ _).symm⟩
      exact ends_of_renamed hallowed hn hk hleaf (hfree _ (not_mem_repeated_rename labels hne))
  · have hk' : (Index.repeated labels).contains k = false := by simpa using hk
    simp only [hk', Bool.false_eq_true, ite_false]
    exact hfree _ hk

/-- A relabelling that sums over the direction passes to its operand after one renaming. -/
lemma ends_relabelling (hc : e.dependsOnly constant = false) (hlen : target.length = e.outer.length)
    (he : ∀ c, (Task.diff e c).Ends constant allowed (differentiate constant atMark e c)) :
    (Task.diff (bind e target) k).Ends constant allowed
      (differentiate constant atMark (bind e target) k) := by
  have hrule : ∀ target, k ∉ Index.repeated target → (Task.diff (bind e target) k).Ends constant allowed
      (bindRule e target k (differentiate constant atMark e)) := fun target hk => by
    simpa only [renamedOperand, hc, Bool.false_eq_true, ite_false] using ends_bind hallowed hk he
  have hn : (bind e target).dependsOnly constant = false := hc
  rw [differentiate, if_neg (by simp [hn])]
  by_cases hk : k ∈ Index.repeated target
  · simp only [List.contains_iff_mem.2 hk, ite_true]
    cases hfresh : freshLabel (bind e target) k with
    | error f => exact ends_of_not_renamed hn hk (by rw [renameSummed, hfresh]; rfl)
    | ok fresh =>
      have hne := (not_mem_of_freshLabel hfresh).1
      have hbind : mkBind e (Index.rename target k fresh) = .ok (bind e (Index.rename target k fresh)) :=
        mkBind_eq_ok_iff.2 ⟨rfl, (Index.length_rename _ _ _).trans hlen⟩
      simp only [ok_bind, hbind]
      exact ends_of_renamed hallowed hn hk (by rw [renameSummed, hfresh]; exact hbind)
        (hrule _ (not_mem_repeated_rename target hne))
  · have hk' : (Index.repeated target).contains k = false := by simpa using hk
    simp only [hk', Bool.false_eq_true, ite_false]
    exact hrule _ hk

/-- The recursion ends with what the structural one gives, if it does so at marks. -/
lemma differentiate_ends {P : Expr → Prop} (hwf : ∀ {n}, P n → n.WellFormed)
    (hops : ∀ {n l r}, n.operands? = some (l, r) → P n → P l ∧ P r)
    (hmark : ∀ e along k, P (derivative e along) → e.dependsOnly constant = false →
      (Task.diff (derivative e along) k).Ends constant allowed (atMark e along k))
    (hn : P n) : (Task.diff n k).Ends constant allowed (differentiate constant atMark n k) := by
  have call : ∀ {n k x y next}, (Task.diff n k).Ends constant allowed x →
      (next x : Course).Ends constant allowed y →
      (Course.call (.diff n k) next).Ends constant allowed y :=
    fun h hnext => .call (hallowed _ trivial) h hnext
  -- Every request is for an operand, possibly along another label, so the structure of the
  -- expression is the measure.
  induction n generalizing k with
  | literal | delta | epsilon => exact ends_of_varying fun hc => by cases hc
  | scalar ref =>
    refine ends_of_varying fun hc => ?_
    rw [differentiate, if_neg (by simp [hc])]
    exact ends_of_node hc (by simp [contracted]) .done
  | tensor symbol labels => exact ends_of_varying fun hc => ends_tensor hallowed hc (hwf hn).1
  | derivative e along =>
    refine ends_of_varying fun hc => ?_
    rw [differentiate, if_neg (by simp [hc])]
    exact hmark _ _ _ hn hc
  | negate e ih | apply f e ih =>
    refine ends_of_varying fun hc => ?_
    rw [differentiate, if_neg (by simp [hc])]
    exact ends_of_node hc (by simp [contracted]) (call (ih (hops rfl hn).1) .done)
  | bind e target ih =>
    exact ends_of_varying fun hc =>
      ends_relabelling hallowed hc (hwf hn).2 fun _ => ih (hops rfl hn).1
  | sum l r ihl ihr | difference l r ihl ihr =>
    obtain ⟨hl, hr⟩ := hops rfl hn
    refine ends_of_varying fun hc => ?_
    rw [differentiate, if_neg (by simp [hc])]
    exact ends_of_node hc (by simp [contracted]) (call (ihl hl) (call (ihr hr) .done))
  | product l r ihl ihr =>
    obtain ⟨hl, hr⟩ := hops rfl hn
    refine ends_of_varying fun hc => ?_
    rw [differentiate, if_neg (by simp [hc])]
    exact ends_factors hallowed (.inl ⟨rfl, rfl⟩) hc (fun _ => ihl hl) fun _ => ihr hr
  | ratio l r ihl ihr =>
    obtain ⟨hl, hr⟩ := hops rfl hn
    refine ends_of_varying fun hc => ?_
    rw [differentiate, if_neg (by simp [hc])]
    exact ends_factors hallowed (.inr ⟨rfl, rfl⟩) hc (fun _ => ihl hl) fun _ => ihr hr
  | power l r ihl _ =>
    refine ends_of_varying fun hc => ?_
    rw [differentiate.eq_def, if_neg (by simp [hc])]
    apply ends_of_node hc (by simp [contracted])
    cases r with
    | literal x =>
      cases x with
      | exact q => exact call (ihl (hops rfl hn).1) .done
      | float => exact .done
    | _ => exact .done

/-- Without marks it does not matter what is done at marks. -/
lemma differentiate_ends_of_unmarked (atMark : Expr → Index → Label → Except Fault Expr)
    (hn : n.WellFormed) (hmark : n.hasDerivative = false) :
    (Task.diff n k).Ends constant allowed (differentiate constant atMark n k) :=
  differentiate_ends (P := fun n => n.WellFormed ∧ n.hasDerivative = false) hallowed (fun h => h.1)
    (fun hops h =>
      have hwf := wellFormed_operands hops h.1
      have hmark := hasDerivative_operands hops h.2
      ⟨⟨hwf.1, hmark.1⟩, hwf.2, hmark.2⟩)
    (fun _ _ _ h => by cases h.2) ⟨hn, hmark⟩

/-- Derivatives along several labels of an expression without marks. -/
lemma along_ends_of_unmarked (atMark : Expr → Index → Label → Except Fault Expr)
    (hn : n.WellFormed) (hmark : n.hasDerivative = false) :
    (Task.along n along).Ends constant allowed (along.foldlM (differentiate constant atMark) n) := by
  induction along generalizing n with
  | nil => exact .done
  | cons k rest ih =>
    rw [List.foldlM_cons]
    refine .andThen (hallowed _ trivial) (differentiate_ends_of_unmarked hallowed atMark hn hmark)
      fun d hd => ?_
    have hderived := differentiate_derived hn hmark hd
    exact .call (hallowed _ trivial) (ih hderived.wellFormed hderived.hasDerivative) .done

end Derivatives

/-! ### Marks -/

section Marks

variable {constant : Constancy} {n e : Expr} {k : Label} {along : Index}

/-- Expanding is the recursion along the operands. -/
theorem expand_ends (hn : n.WellFormed) :
    (Task.expand n).Ends constant (fun _ => True) (expand constant n) := by
  induction n with
  | derivative e along ih =>
    rw [expand]
    refine .andThen trivial (ih hn.1) fun d hd => ?_
    obtain ⟨hwf, hmark⟩ := expand_wellFormed hn.1 hd
    exact .call trivial (along_ends_of_unmarked (fun _ _ => trivial) extendMark hwf hmark) .done
  | negate e ih =>
    rw [expand]
    exact .andThen trivial (ih hn) fun d _ => .done
  | apply f e ih | bind e target ih =>
    rw [expand]
    exact .andThen trivial (ih hn.1) fun d _ => .done
  | sum l r ihl ihr | difference l r ihl ihr | product l r ihl ihr | ratio l r ihl ihr
  | power l r ihl ihr =>
    rw [expand]
    exact .andThen trivial (ihl hn.1) fun dl _ => .andThen trivial (ihr hn.2.1) fun dr _ => .done
  | _ => exact .done

/-- Differentiating what a mark is expanded to needs no further expanding. -/
lemma markDerivative_ends (hn : (derivative e along).WellFormed) (hc : e.dependsOnly constant = false) :
    (Task.diff (derivative e along) k).Ends constant (fun _ => True)
      (markDerivative constant e along k) := by
  apply ends_of_node (n := derivative e along) hc (by simp [contracted])
  rw [nodeCourse, markDerivative]
  split
  · refine .andThen trivial (expand_ends hn) fun d hd => ?_
    obtain ⟨hwf, hmark⟩ := expand_wellFormed hn hd
    exact .call trivial (differentiate_ends_of_unmarked (fun _ _ => trivial) _ hwf hmark) .done
  · exact .done

/-- Differentiating along one label ends. -/
theorem diff_ends (hn : n.WellFormed) :
    (Task.diff n k).Ends constant (fun _ => True) (diff constant n k) :=
  differentiate_ends (P := WellFormed) (fun _ _ => trivial) id wellFormed_operands
    (fun _ _ _ hwf hc => markDerivative_ends hwf hc) hn

/-- Differentiating along several labels ends. -/
theorem diffAlong_ends (hn : n.WellFormed) :
    (Task.along n along).Ends constant (fun _ => True) (diffAlong constant n along) := by
  induction along generalizing n with
  | nil => exact .done
  | cons k rest ih =>
    rw [diffAlong, List.foldlM_cons]
    exact .andThen trivial (diff_ends hn) fun d hd => .call trivial (ih (hn.diff hd)) .done

end Marks

/-- Differentiation ends for every expression and direction, with the result of the structural recursion
and no other. A renamed label is not summed at the node again. What the marks are expanded to has no
marks, and differentiating it any further makes no call to expand. -/
theorem differentiation_ends {e : Expr} (he : Built e) (constant : Constancy) :
    (∀ k x, (Task.diff e k).Ends constant (fun _ => True) x ↔ x = diff constant e k) ∧
    (∀ along x, (Task.along e along).Ends constant (fun _ => True) x ↔ x = diffAlong constant e along) ∧
    (∀ x, (Task.expand e).Ends constant (fun _ => True) x ↔ x = expand constant e) ∧
    (∀ k m, k ∈ e.contracted → renameSummed e k = .ok m → k ∉ m.contracted) ∧
    ∀ d, expand constant e = .ok d → d.hasDerivative = false ∧
      ∀ along, (Task.along d along).Ends constant Task.Differentiates (diffAlong constant d along) := by
  have hwf := he.wellFormed
  refine ⟨fun _ _ => (diff_ends hwf).iff, fun _ _ => (diffAlong_ends hwf).iff,
    fun _ => (expand_ends hwf).iff, fun _ _ _ => not_mem_contracted_renameSummed, fun d hd => ?_⟩
  obtain ⟨hdwf, hdmark⟩ := expand_wellFormed hwf hd
  exact ⟨hdmark, fun _ => along_ends_of_unmarked (fun _ => id) _ hdwf hdmark⟩

/-- The derivative of the square of the vector `v` along `j` and `j`. -/
def markedSquare : Expr :=
  derivative (product (tensor ⟨Bytes.ofString "v", 1, 0⟩ [105])
    (tensor ⟨Bytes.ofString "v", 1, 0⟩ [105])) [106, 106]

/-- The mark is expanded first, and in the product of derivatives along `j` this label is renamed. -/
theorem differentiation_ends_markedSquare :
    Built markedSquare ∧
      ∃ d m, (Task.expand markedSquare).Ends (fun _ => false) (fun _ => True) (.ok d) ∧
        d.hasDerivative = false ∧
        (Task.diff markedSquare 106).Ends (fun _ => false) (fun _ => True) (.ok m) ∧
        m.outer = [106] := by
  have hbuilt : Built markedSquare := by
    apply WellFormed.built
    simp only [markedSquare, WellFormed, outer, kind]
    decide
  have hexpand : (expand (fun _ => false) markedSquare).toOption.isSome = true := by decide +kernel
  have hdiff : ((diff (fun _ => false) markedSquare 106).toOption.any fun m => m.outer == [106])
      = true := by decide +kernel
  obtain ⟨hderivative, -, hexpanded, -, hmarks⟩ := differentiation_ends hbuilt fun _ => false
  obtain ⟨m, hm, houter⟩ := toOption_any_iff.1 hdiff
  cases hd : expand (fun _ => false) markedSquare with
  | error f =>
    rw [hd] at hexpand
    cases hexpand
  | ok d =>
    exact ⟨hbuilt, d, m, (hexpanded _).2 hd.symm, (hmarks d hd).1, (hderivative 106 _).2 hm.symm,
      by simpa using houter⟩

end Indicial.Expr
