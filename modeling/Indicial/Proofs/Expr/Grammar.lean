import Indicial.Proofs.Expr.Tokens

/-!
# The grammar of expressions

The grammar says which sequences of tokens are expressions, and gives each its parse tree:

    expr    := term (('+' | '-') term)*
    term    := unary (('*' | '/') unary)*
    unary   := '-' unary | power
    power   := primary ('^' unary)?
    primary := number | '(' expr ')' | name | name '(' arguments ')'

The repetitions associate to the left: `Part.more` is what follows the tree `left`, and every round
makes `left` the left operand of a larger tree. What arguments a name takes depends on what it stands
for. Functions and reserved names come before tensors.

A tree is turned into an expression by the checked ways of building one (`ParseTree.build`), which
may refuse it. A sequence of tokens has at most one tree (`Phrase.unique`).
-/

namespace Indicial.Expr.Parser

/-! ### Trees -/

/-- The operators between two operands. -/
inductive Operator where
  | plus | minus | times | slash
deriving DecidableEq

/-- What takes one expression. -/
inductive Operation where
  | apply (f : Func)
  | symmetrize

/-- What takes an expression and labels. -/
inductive Labelling where
  | derivative
  | bind

/-- What takes labels only. -/
inductive Symbol where
  | delta
  | epsilon
  | tensor (a : Tensor)

/-- What a phrase stands for, before anything is built. -/
inductive ParseTree where
  | number (x : Literal)
  | binary (op : Operator) (left right : ParseTree)
  | negative (operand : ParseTree)
  | power (base exponent : ParseTree)
  | operation (k : Operation) (operand : ParseTree)
  | labelling (k : Labelling) (operand : ParseTree) (labels : Index)
  | symbol (k : Symbol) (labels : Index)
  | reference (a : Tensor)

/-- The builder of an operator. -/
def Operator.build : Operator → Expr → Expr → Except Fault Expr
  | plus => mkSum
  | minus => mkDifference
  | times => mkProduct
  | slash => mkRatio

/-- The builder of an operation on one operand. -/
def Operation.build : Operation → Expr → Except Fault Expr
  | apply f => mkApply f
  | symmetrize => Expr.symmetrize

/-- The builder of an operation that takes an operand and labels. -/
def Labelling.build : Labelling → Expr → Index → Except Fault Expr
  | derivative => mkDerivative
  | bind => mkBind

/-- The builder of a symbol with labels. -/
def Symbol.build : Symbol → Index → Except Fault Expr
  | delta => mkDelta
  | epsilon => mkEpsilon
  | tensor a => mkLeaf a

/-- A minus before an expression. A literal takes it into its value. -/
def negated : Expr → Except Fault Expr
  | literal value labels => mkBroadcast value.neg labels
  | e => mkNegate e

/-- The expression of a tree. -/
def ParseTree.build : ParseTree → Except Fault Expr
  | number x => .ok (Expr.number x)
  | binary op l r => do op.build (← l.build) (← r.build)
  | negative t => do negated (← t.build)
  | power b e => do mkPower (← b.build) (← e.build)
  | operation k t => do k.build (← t.build)
  | labelling k t labels => do k.build (← t.build) labels
  | symbol k labels => k.build labels
  | reference a => mkReference a

/-! ### Names and labels -/

/-- What a name stands for. -/
inductive Meaning where
  | operation (k : Operation)
  | labelling (k : Labelling)
  | symbol (k : Symbol)

/-- The names with a meaning of their own besides the functions. -/
def reserved : List (Bytes × Meaning) :=
  [(Bytes.ofString "D", .labelling .derivative), (Bytes.ofString "bind", .labelling .bind),
    (Bytes.ofString "symmetrize", .operation .symmetrize), (Bytes.ofString "delta", .symbol .delta),
    (Bytes.ofString "epsilon", .symbol .epsilon)]

/-- The meaning of a name: a function, else a reserved name, else a tensor. -/
def resolve (scope : Scope) (w : Bytes) : Option Meaning :=
  ((Func.ofName? w).map fun f => .operation (.apply f)) <|> reserved.lookup w <|>
    (scope.lookup w).map fun a => .symbol (.tensor a)

section

variable {scope : Scope} {w : Bytes}

/-- Names of functions stand for functions. -/
lemma resolve_of_function {f : Func} (h : Func.ofName? w = some f) :
    resolve scope w = some (.operation (.apply f)) := by
  simp [resolve, h]

/-- Reserved names stand for what they are reserved for, unless they name functions. -/
lemma resolve_of_reserved {m : Meaning} (h : Func.ofName? w = none)
    (hw : reserved.lookup w = some m) : resolve scope w = some m := by
  simp [resolve, h, hw]

/-- All other names stand for tensors of the scope. -/
lemma resolve_of_tensor (h : Func.ofName? w = none) (hw : reserved.lookup w = none) :
    resolve scope w = (scope.lookup w).map fun a => .symbol (.tensor a) := by
  simp [resolve, h, hw]

end

/-- Words of letters with commas between them, and the letters of all words. -/
inductive Words : List Token → Index → Prop
  | last {w : Bytes} (hw : ∀ b ∈ w, Bytes.isLetter b) : Words [.name w] w
  | cons {w : Bytes} {ts : List Token} {labels : Index} (hw : ∀ b ∈ w, Bytes.isLetter b)
      (h : Words ts labels) : Words (.name w :: .mark .comma :: ts) (w ++ labels)

/-- Words or nothing, with no more letters than an index holds. -/
def LabelList (ts : List Token) (labels : Index) : Prop :=
  (ts = [] ∧ labels = [] ∨ Words ts labels) ∧ labels.length ≤ Index.capacity

/-! ### Phrases -/

/-- The two kinds of chains: terms joined by plus and minus, factors joined by times and slash. -/
inductive Tier where
  | sum | product

/-- The kind of chain that an operator joins. -/
def Operator.tier : Operator → Tier
  | plus | minus => .sum
  | times | slash => .product

/-- The mark that is written for an operator. -/
def Operator.mark : Operator → Mark
  | plus => .plus | minus => .minus | times => .times | slash => .slash

/-- Operators are told apart by their marks. -/
lemma Operator.mark_injective : Function.Injective Operator.mark := by
  intro p q h
  cases p <;> cases q <;> cases h <;> rfl

/-- The parts of the grammar. -/
inductive Part where
  | expr | term | unary | power | primary
  /-- The rest of a chain after the tree `left`. -/
  | more (tier : Tier) (left : ParseTree)

/-- What is joined in a chain. -/
def Tier.operand : Tier → Part
  | sum => .term
  | product => .unary

/-- What is joined in a chain is no rest of a chain. -/
lemma Tier.operand_ne_more (tier tier' : Tier) (left : ParseTree) :
    tier.operand ≠ .more tier' left := by
  cases tier <;> exact nofun

/-- The tokens are such a part, and this is its tree. -/
inductive Phrase (scope : Scope) : Part → List Token → ParseTree → Prop
  | expr {ts us t u} (h : Phrase scope .term ts t) (hmore : Phrase scope (.more .sum t) us u) :
      Phrase scope .expr (ts ++ us) u
  | term {ts us t u} (h : Phrase scope .unary ts t) (hmore : Phrase scope (.more .product t) us u) :
      Phrase scope .term (ts ++ us) u
  | done {tier t} : Phrase scope (.more tier t) [] t
  | more {tier ts us t u v} {op : Operator} (hop : op.tier = tier)
      (h : Phrase scope tier.operand ts u)
      (hmore : Phrase scope (.more tier (.binary op t u)) us v) :
      Phrase scope (.more tier t) (.mark op.mark :: (ts ++ us)) v
  | negative {ts t} (h : Phrase scope .unary ts t) :
      Phrase scope .unary (.mark .minus :: ts) (.negative t)
  | positive {ts t} (h : Phrase scope .power ts t) : Phrase scope .unary ts t
  | raised {ts us t u} (h : Phrase scope .primary ts t) (hexp : Phrase scope .unary us u) :
      Phrase scope .power (ts ++ .mark .hat :: us) (.power t u)
  | plain {ts t} (h : Phrase scope .primary ts t) : Phrase scope .power ts t
  | number {x} : Phrase scope .primary [.number x] (.number x)
  | group {ts t} (h : Phrase scope .expr ts t) :
      Phrase scope .primary (.mark .opening :: (ts ++ [.mark .closing])) t
  | operation {w k ts t} (hw : resolve scope w = some (.operation k)) (h : Phrase scope .expr ts t) :
      Phrase scope .primary (.name w :: .mark .opening :: (ts ++ [.mark .closing])) (.operation k t)
  | labelling {w k ts t us labels} (hw : resolve scope w = some (.labelling k))
      (h : Phrase scope .expr ts t) (hlabels : LabelList us labels) :
      Phrase scope .primary
        (.name w :: .mark .opening :: (ts ++ .mark .comma :: (us ++ [.mark .closing])))
        (.labelling k t labels)
  | bind {w ts t} (hw : resolve scope w = some (.labelling .bind)) (h : Phrase scope .expr ts t) :
      Phrase scope .primary (.name w :: .mark .opening :: (ts ++ [.mark .closing]))
        (.labelling .bind t [])
  | symbol {w k us labels} (hw : resolve scope w = some (.symbol k)) (hlabels : LabelList us labels) :
      Phrase scope .primary (.name w :: .mark .opening :: (us ++ [.mark .closing])) (.symbol k labels)
  | reference {w a} (hw : resolve scope w = some (.symbol (.tensor a))) (horder : a.order = 0) :
      Phrase scope .primary [.name w] (.reference a)

/-- The text is an expression over the tensors, with this tree. -/
def Sentence (scope : Scope) (src : Bytes) (t : ParseTree) : Prop :=
  ∃ ts, Spelled src ts ∧ Phrase scope .expr ts t

/-! ### Unambiguity -/

/-- The marks that would carry a chain or its last operand on. -/
def Tier.continuations : Tier → List Mark
  | product => [.times, .slash, .hat, .opening]
  | sum => [.plus, .minus, .times, .slash, .hat, .opening]

/-- The marks that would carry a part on. -/
def Part.continuations : Part → List Mark
  | primary => [.opening]
  | unary | power => [.hat, .opening]
  | term => Tier.product.continuations
  | expr => Tier.sum.continuations
  | more tier _ => tier.continuations

/-- A part ends before these tokens: none of its continuations comes next. -/
def Part.EndsBefore (part : Part) (ts : List Token) : Prop :=
  ∀ m ∈ part.continuations, ts.head? ≠ some (.mark m)

section Unambiguity

variable {scope : Scope} {part : Part} {tier : Tier} {ts us ts' us' : List Token}
  {t u t' : ParseTree} {labels labels' : Index}

/-- A mark that does not carry a part on ends it. -/
lemma Part.endsBefore_mark {m : Mark} (hm : m ∉ part.continuations) :
    part.EndsBefore (.mark m :: ts) := by
  intro n hn h
  cases h
  exact hm hn

/-- A part with fewer continuations ends no later. -/
lemma Part.EndsBefore.mono {part' : Part} (h : part.EndsBefore ts)
    (hsub : part'.continuations ⊆ part.continuations) : part'.EndsBefore ts :=
  fun m hm => h m (hsub hm)

/-- An operator carries its chain on. -/
lemma Operator.mark_mem_continuations (op : Operator) : op.mark ∈ op.tier.continuations := by
  cases op <;> decide

/-- An operator does not carry on what it joins. -/
lemma Operator.mark_notMem_operand (op : Operator) : op.mark ∉ op.tier.operand.continuations := by
  cases op <;> decide

/-- What carries on an operand carries on its chain. -/
lemma Tier.operand_continuations_subset (tier : Tier) :
    tier.operand.continuations ⊆ tier.continuations := by
  cases tier <;> decide

/-- An expression ends before a closing bracket. -/
lemma Part.endsBefore_closing : Part.expr.EndsBefore (.mark .closing :: ts) :=
  endsBefore_mark (by decide)

/-- An expression ends before a comma. -/
lemma Part.endsBefore_comma : Part.expr.EndsBefore (.mark .comma :: ts) :=
  endsBefore_mark (by decide)

/-- What follows an operand in a chain is another operand, or what follows the chain. -/
lemma Phrase.endsBefore_more (h : Phrase scope (.more tier t) us u)
    (hend : (Part.more tier t).EndsBefore ts) : tier.operand.EndsBefore (us ++ ts) := by
  cases h with
  | done => exact hend.mono tier.operand_continuations_subset
  | @more _ _ _ _ _ _ op hop _ _ =>
    subst hop
    exact Part.endsBefore_mark op.mark_notMem_operand

/-- A power does not start with a minus. -/
lemma Phrase.head_primary (h : Phrase scope .primary ts t) :
    ∃ a as, ts = a :: as ∧ a ≠ .mark .minus := by
  cases h <;> exact ⟨_, _, rfl, nofun⟩

/-- A primary that starts a sequence starts with its first token. -/
lemma Phrase.exists_tail {a : Token} {xs vs : List Token} (h : Phrase scope .primary ts t)
    (heq : a :: xs ++ vs = ts ++ us) : ∃ ys, ts = a :: ys ∧ xs ++ vs = ys ++ us := by
  obtain ⟨b, ys, rfl, -⟩ := h.head_primary
  obtain ⟨rfl, htail⟩ := List.cons.inj heq
  exact ⟨ys, rfl, htail⟩

/-- A power has a first token, and that is no minus. -/
lemma Phrase.head_power (h : Phrase scope .power ts t) :
    ∃ a as, ts = a :: as ∧ a ≠ .mark .minus := by
  cases h with
  | raised h _ =>
    obtain ⟨a, as, rfl, ha⟩ := h.head_primary
    exact ⟨a, _, rfl, ha⟩
  | plain h => exact h.head_primary

/-- The words before a closing bracket are read in one way. -/
lemma Words.unique (h : Words us labels) (h' : Words us' labels')
    (heq : us ++ .mark .closing :: ts = us' ++ .mark .closing :: ts') :
    us = us' ∧ labels = labels' := by
  induction h generalizing us' labels' with
  | last hw =>
    cases h' with
    | last hw' =>
      cases heq
      exact ⟨rfl, rfl⟩
    | cons hw' h' => cases heq
  | cons hw h ih =>
    cases h' with
    | last hw' => cases heq
    | cons hw' h' =>
      simp only [List.cons_append, List.cons.injEq, Token.name.injEq, true_and] at heq
      obtain ⟨rfl, heq⟩ := heq
      obtain ⟨rfl, rfl⟩ := ih h' heq
      exact ⟨rfl, rfl⟩

/-- The list of labels before a closing bracket is read in one way. -/
lemma LabelList.unique (h : LabelList us labels) (h' : LabelList us' labels')
    (heq : us ++ .mark .closing :: ts = us' ++ .mark .closing :: ts') :
    us = us' ∧ labels = labels' := by
  rcases h.1 with ⟨rfl, rfl⟩ | hwords
  · rcases h'.1 with ⟨rfl, rfl⟩ | hwords'
    · exact ⟨rfl, rfl⟩
    · cases hwords' <;> cases heq
  · rcases h'.1 with ⟨rfl, rfl⟩ | hwords'
    · cases hwords <;> cases heq
    · exact hwords.unique hwords' heq

/-- What may follow a name that has a meaning, as far as the part belongs to the name. -/
lemma Phrase.name_inv {w : Bytes} {xs : List Token} (h : Phrase scope .primary (.name w :: xs) t) :
    match resolve scope w with
    | some (.operation k) => ∃ ts u, xs = .mark .opening :: (ts ++ [.mark .closing]) ∧
        Phrase scope .expr ts u ∧ t = .operation k u
    | some (.labelling k) =>
        (∃ ts u us labels, xs = .mark .opening :: (ts ++ .mark .comma :: (us ++ [.mark .closing])) ∧
          Phrase scope .expr ts u ∧ LabelList us labels ∧ t = .labelling k u labels) ∨
        ∃ ts u, xs = .mark .opening :: (ts ++ [.mark .closing]) ∧ Phrase scope .expr ts u ∧
          t = .labelling k u []
    | some (.symbol k) =>
        (∃ us labels, xs = .mark .opening :: (us ++ [.mark .closing]) ∧ LabelList us labels ∧
          t = .symbol k labels) ∨
        ∃ a, k = .tensor a ∧ xs = [] ∧ t = .reference a
    | none => False := by
  cases h with
  | operation hw h =>
    rw [hw]
    exact ⟨_, _, rfl, h, rfl⟩
  | labelling hw h hlabels =>
    rw [hw]
    exact .inl ⟨_, _, _, _, rfl, h, hlabels, rfl⟩
  | bind hw h =>
    rw [hw]
    exact .inr ⟨_, _, rfl, h, rfl⟩
  | symbol hw hlabels =>
    rw [hw]
    exact .inl ⟨_, _, rfl, hlabels, rfl⟩
  | reference hw horder =>
    rw [hw]
    exact .inr ⟨_, rfl, rfl, rfl⟩

/-- Of all beginnings of a sequence of tokens, at most one is a given part and ends there. -/
theorem Phrase.unique (h : Phrase scope part ts t) (h' : Phrase scope part ts' t')
    (heq : ts ++ us = ts' ++ us') (hend : part.EndsBefore us) (hend' : part.EndsBefore us') :
    ts = ts' ∧ t = t' := by
  -- By induction on the first phrase. The two agree on their first parts, whatever follows these, so
  -- they could only part where one of them goes on; the mark with which it does ends the other.
  induction h generalizing ts' t' us us' with
  | @expr ts vs t v h hmore ih ihmore =>
    cases h' with
    | @expr ts' vs' t' v' h' hmore' =>
      simp only [List.append_assoc] at heq
      obtain ⟨rfl, rfl⟩ := ih h' heq (hmore.endsBefore_more hend) (hmore'.endsBefore_more hend')
      obtain ⟨rfl, rfl⟩ := ihmore hmore' (List.append_cancel_left heq) hend hend'
      exact ⟨rfl, rfl⟩
  | @term ts vs t v h hmore ih ihmore =>
    cases h' with
    | @term ts' vs' t' v' h' hmore' =>
      simp only [List.append_assoc] at heq
      obtain ⟨rfl, rfl⟩ := ih h' heq (hmore.endsBefore_more hend) (hmore'.endsBefore_more hend')
      obtain ⟨rfl, rfl⟩ := ihmore hmore' (List.append_cancel_left heq) hend hend'
      exact ⟨rfl, rfl⟩
  | @done tier t =>
    cases h' with
    | done => exact ⟨rfl, rfl⟩
    | @more _ _ _ _ _ _ op hop _ _ =>
      subst hop
      rw [List.nil_append] at heq
      exact absurd (by rw [heq]; rfl) (hend op.mark op.mark_mem_continuations)
  | @more tier ts vs t u v op hop h hmore ih ihmore =>
    subst hop
    cases h' with
    | done =>
      rw [List.nil_append] at heq
      exact absurd (by rw [← heq]; rfl) (hend' op.mark op.mark_mem_continuations)
    | @more _ ts' vs' _ u' v' op' hop' h' hmore' =>
      simp only [List.cons_append, List.append_assoc, List.cons.injEq, Token.mark.injEq] at heq
      obtain ⟨hmark, heq⟩ := heq
      obtain rfl := Operator.mark_injective hmark
      obtain ⟨rfl, rfl⟩ := ih h' heq (hmore.endsBefore_more hend) (hmore'.endsBefore_more hend')
      obtain ⟨rfl, rfl⟩ := ihmore hmore' (List.append_cancel_left heq) hend hend'
      exact ⟨rfl, rfl⟩
  | @negative ts t h ih =>
    cases h' with
    | negative h' =>
      obtain ⟨rfl, rfl⟩ := ih h' (List.cons.inj heq).2 hend hend'
      exact ⟨rfl, rfl⟩
    | positive h' =>
      obtain ⟨a, as, rfl, ha⟩ := h'.head_power
      exact absurd (List.cons.inj heq).1.symm ha
  | @positive ts t h ih =>
    cases h' with
    | negative h' =>
      obtain ⟨a, as, rfl, ha⟩ := h.head_power
      exact absurd (List.cons.inj heq).1 ha
    | positive h' => exact ih h' heq hend hend'
  | @raised ts vs t v h hexp ih ihexp =>
    rw [List.append_assoc, List.cons_append] at heq
    cases h' with
    | @raised ts' vs' t' v' h' hexp' =>
      rw [List.append_assoc, List.cons_append] at heq
      obtain ⟨rfl, rfl⟩ :=
        ih h' heq (Part.endsBefore_mark (by decide)) (Part.endsBefore_mark (by decide))
      have htail := (List.cons.inj (List.append_cancel_left heq)).2
      obtain ⟨rfl, rfl⟩ := ihexp hexp' htail hend hend'
      exact ⟨rfl, rfl⟩
    | plain h' =>
      obtain ⟨rfl, rfl⟩ := ih h' heq (Part.endsBefore_mark (by decide)) (hend'.mono (by decide))
      exact absurd (by rw [← List.append_cancel_left heq]; rfl) (hend' .hat (by decide))
  | @plain ts t h ih =>
    cases h' with
    | @raised ts' vs' t' v' h' hexp' =>
      rw [List.append_assoc, List.cons_append] at heq
      obtain ⟨rfl, rfl⟩ := ih h' heq (hend.mono (by decide)) (Part.endsBefore_mark (by decide))
      exact absurd (by rw [List.append_cancel_left heq]; rfl) (hend .hat (by decide))
    | plain h' => exact ih h' heq (hend.mono (by decide)) (hend'.mono (by decide))
  | @number x =>
    cases h' <;> cases heq
    exact ⟨rfl, rfl⟩
  | @group ts t h ih =>
    cases h' with
    | @group ts' t' h' =>
      simp only [List.cons_append, List.append_assoc, List.cons.injEq, true_and] at heq
      obtain ⟨rfl, rfl⟩ := ih h' heq Part.endsBefore_closing Part.endsBefore_closing
      exact ⟨rfl, rfl⟩
    | _ => cases heq
  | @operation w k ts t hw h ih =>
    obtain ⟨ys, rfl, htail⟩ := h'.exists_tail heq
    have hinv := h'.name_inv
    rw [hw] at hinv
    obtain ⟨ts', u', rfl, hexpr, rfl⟩ := hinv
    simp only [List.cons_append, List.append_assoc, List.cons.injEq, true_and] at htail
    obtain ⟨rfl, rfl⟩ := ih hexpr htail Part.endsBefore_closing Part.endsBefore_closing
    exact ⟨rfl, rfl⟩
  | @labelling w k ts t vs labels hw h hlabels ih =>
    obtain ⟨ys, rfl, htail⟩ := h'.exists_tail heq
    have hinv := h'.name_inv
    rw [hw] at hinv
    rcases hinv with ⟨ts', u', vs', labels', rfl, hexpr, hlabels', rfl⟩ | ⟨ts', u', rfl, hexpr, rfl⟩
    · simp only [List.cons_append, List.append_assoc, List.cons.injEq, true_and] at htail
      obtain ⟨rfl, rfl⟩ := ih hexpr htail Part.endsBefore_comma Part.endsBefore_comma
      obtain ⟨rfl, rfl⟩ :=
        hlabels.unique hlabels' (List.cons.inj (List.append_cancel_left htail)).2
      exact ⟨rfl, rfl⟩
    · simp only [List.cons_append, List.append_assoc, List.cons.injEq, true_and] at htail
      obtain ⟨rfl, rfl⟩ := ih hexpr htail Part.endsBefore_comma Part.endsBefore_closing
      cases List.append_cancel_left htail
  | @bind w ts t hw h ih =>
    obtain ⟨ys, rfl, htail⟩ := h'.exists_tail heq
    have hinv := h'.name_inv
    rw [hw] at hinv
    rcases hinv with ⟨ts', u', vs', labels', rfl, hexpr, hlabels', rfl⟩ | ⟨ts', u', rfl, hexpr, rfl⟩
    · simp only [List.cons_append, List.append_assoc, List.cons.injEq, true_and] at htail
      obtain ⟨rfl, rfl⟩ := ih hexpr htail Part.endsBefore_closing Part.endsBefore_comma
      cases List.append_cancel_left htail
    · simp only [List.cons_append, List.append_assoc, List.cons.injEq, true_and] at htail
      obtain ⟨rfl, rfl⟩ := ih hexpr htail Part.endsBefore_closing Part.endsBefore_closing
      exact ⟨rfl, rfl⟩
  | @symbol w k vs labels hw hlabels =>
    obtain ⟨ys, rfl, htail⟩ := h'.exists_tail heq
    have hinv := h'.name_inv
    rw [hw] at hinv
    rcases hinv with ⟨vs', labels', rfl, hlabels', rfl⟩ | ⟨a', rfl, rfl, rfl⟩
    · simp only [List.cons_append, List.append_assoc, List.cons.injEq, true_and] at htail
      obtain ⟨rfl, rfl⟩ := hlabels.unique hlabels' htail
      exact ⟨rfl, rfl⟩
    · exact absurd (congrArg List.head? htail.symm) (hend' .opening (by decide))
  | @reference w a hw horder =>
    obtain ⟨ys, rfl, htail⟩ := h'.exists_tail heq
    have hinv := h'.name_inv
    rw [hw] at hinv
    rcases hinv with ⟨vs', labels', rfl, hlabels', rfl⟩ | ⟨a', ha, rfl, rfl⟩
    · exact absurd (congrArg List.head? htail) (hend .opening (by decide))
    · cases ha
      exact ⟨rfl, rfl⟩

/-- A text has at most one parse tree. -/
theorem Sentence.unique {src : Bytes} (h : Sentence scope src t) (h' : Sentence scope src t') :
    t = t' := by
  obtain ⟨ts, hspelled, hphrase⟩ := h
  obtain ⟨ts', hspelled', hphrase'⟩ := h'
  obtain rfl := hspelled.unique hspelled'
  have heq : ts ++ [] = ts ++ [] := rfl
  exact (hphrase.unique hphrase' heq nofun nofun).2

end Unambiguity

end Indicial.Expr.Parser
