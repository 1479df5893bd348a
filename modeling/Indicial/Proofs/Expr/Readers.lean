import Indicial.Proofs.Expr.Grammar

/-!
# What the readers do

Each reader takes an expression from the front of a text and leaves the rest. This module says of
every reader exactly when it succeeds with what, in terms of the next token and of the readers that it
calls. Later proofs use these lemmas and never open a reader.
-/

namespace Indicial.Expr.Parser

/-- A reader succeeds with an expression and leaves a rest. -/
def Reads {P : Bytes → Prop} (x : Except Error (Expr × { r : Bytes // P r })) (e : Expr) (r : Bytes) :
    Prop :=
  ∃ h, x = .ok (e, ⟨r, h⟩)

/-- Reading on after a first term or a first factor. -/
def Tier.ReadsMore (env : Env) : Tier → Expr → Bytes → Expr → Bytes → Prop
  | sum, e₀, s, e, r => Reads (Parser.exprTail env e₀ s) e r
  | product, e₀, s, e, r => Reads (Parser.termTail env e₀ s) e r

/-- Reading a part. What follows the tree `left` is read on from the expression of that tree. -/
def Part.Reads (env : Env) : Part → Bytes → Expr → Bytes → Prop
  | expr, s, e, r => Parser.Reads (Parser.expr env s) e r
  | term, s, e, r => Parser.Reads (Parser.term env s) e r
  | unary, s, e, r => Parser.Reads (Parser.unary env s) e r
  | power, s, e, r => Parser.Reads (Parser.power env s) e r
  | primary, s, e, r => Parser.Reads (Parser.primary env s) e r
  | more tier left, s, e, r => ∃ e₀, left.build = .ok e₀ ∧ tier.ReadsMore env e₀ s e r

section

variable {P : Bytes → Prop} {env : Env} {s r : Bytes} {e e₀ : Expr} {m : Mark} {tier : Tier}

/-- Every part but the rest of a chain takes something from the text. -/
lemma Part.Reads.length_lt {part : Part} (h : part.Reads env s e r)
    (hpart : ∀ tier left, part ≠ .more tier left) : r.length < s.length := by
  cases part with
  | more tier left => exact absurd rfl (hpart tier left)
  | _ =>
    obtain ⟨hr, -⟩ := h
    exact hr

/-! ### Marks -/

/-- A mark is not accepted exactly if it is not next. -/
lemma accept_eq_none_iff : accept m.byte s = none ↔ ∀ t, ¬Next s (.mark m) t := by
  simp only [← accept_eq_some_iff]
  cases accept m.byte s <;> simp

/-- A mark is found where it is expected exactly if it is next. -/
lemma expect_eq_ok_iff {t : Rest s} : expect env m.byte s = .ok t ↔ Next s (.mark m) t.1 := by
  rw [← accept_eq_some_iff, expect]
  split
  · rename_i u hu
    simp [hu, Subtype.ext_iff]
  · rename_i hnone
    simp [Env.fail, hnone]

/-! ### Chains -/

/-- Reading something and then going on from it. -/
lemma reads_then_iff {x : Except Error (Expr × Rest s)}
    {k : Expr → (u : Bytes) → Except Error (Expr × { r : Bytes // r.length ≤ u.length })}
    {bound : ∀ (p : Expr × Rest s) (q : Expr × { r : Bytes // r.length ≤ p.2.1.length }), P q.2.1} :
    Reads (P := P) (do
      let p ← x
      let q ← k p.1 p.2.1
      pure (q.1, ⟨q.2.1, bound p q⟩)) e r ↔
    ∃ f t, Reads x f t ∧ Reads (k f t) e r := by
  constructor
  · rintro ⟨h, hx⟩
    obtain ⟨⟨f, t, ht⟩, hread, hx⟩ := bind_eq_ok_iff.1 hx
    obtain ⟨⟨e', r', hr'⟩, hthen, hx⟩ := bind_eq_ok_iff.1 hx
    cases hx
    exact ⟨f, t, ⟨ht, hread⟩, hr', hthen⟩
  · rintro ⟨f, t, ⟨ht, hread⟩, hr, hthen⟩
    refine ⟨bound (f, ⟨t, ht⟩) (e, ⟨r, hr⟩), ?_⟩
    rw [hread, ok_bind, hthen]
    rfl

/-- An expression is a term and what is added to it. -/
lemma reads_expr_iff : Part.expr.Reads env s e r ↔
    ∃ f t, Part.term.Reads env s f t ∧ Tier.sum.ReadsMore env f t e r := by
  simp only [Part.Reads, Tier.ReadsMore]
  rw [expr]
  exact reads_then_iff

/-- A term is a unary expression and the factors behind it. -/
lemma reads_term_iff : Part.term.Reads env s e r ↔
    ∃ f t, Part.unary.Reads env s f t ∧ Tier.product.ReadsMore env f t e r := by
  simp only [Part.Reads, Tier.ReadsMore]
  rw [term]
  exact reads_then_iff

/-- One round of reading on: an operand is read and joined to what is there. -/
lemma reads_round_iff {t : Bytes} {x : Except Error (Expr × Rest t)} {join : Expr → Except Fault Expr}
    {k : Expr → (u : Bytes) → Except Error (Expr × { r : Bytes // r.length ≤ u.length })}
    {bound : ∀ (p : Expr × Rest t) (q : Expr × { r : Bytes // r.length ≤ p.2.1.length }), P q.2.1} :
    Reads (P := P) (do
      let p ← x
      let g ← liftM (join p.1)
      let q ← k g p.2.1
      pure (q.1, ⟨q.2.1, bound p q⟩)) e r ↔
    ∃ f u g, Reads x f u ∧ join f = .ok g ∧ Reads (k g u) e r := by
  constructor
  · rintro ⟨h, hx⟩
    obtain ⟨⟨f, u, hu⟩, hread, hx⟩ := bind_eq_ok_iff.1 hx
    obtain ⟨g, hg, hx⟩ := bind_eq_ok_iff.1 hx
    obtain ⟨⟨e', r', hr'⟩, htail, hx⟩ := bind_eq_ok_iff.1 hx
    cases hx
    exact ⟨f, u, g, ⟨hu, hread⟩, liftM_eq_ok_iff.1 hg, hr', htail⟩
  · rintro ⟨f, u, g, ⟨hu, hread⟩, hg, hr, htail⟩
    refine ⟨bound (f, ⟨u, hu⟩) (e, ⟨r, hr⟩), ?_⟩
    rw [hread, ok_bind, hg, liftM_ok, ok_bind, htail]
    rfl

/-- A reader that succeeded reads its result. -/
lemma reads_ok_iff {p : Expr × { r : Bytes // P r }} : Reads (.ok p) e r ↔ e = p.1 ∧ r = p.2.1 := by
  obtain ⟨f, u, hu⟩ := p
  constructor
  · rintro ⟨h, hx⟩
    cases hx
    exact ⟨rfl, rfl⟩
  · rintro ⟨rfl, rfl⟩
    exact ⟨hu, rfl⟩

/-- With an operator next, reading on joins its right operand to what is there. -/
lemma readsMore_operator_iff {op : Operator} {t : Bytes} (h : Next s (.mark op.mark) t) :
    op.tier.ReadsMore env e₀ s e r ↔ ∃ f u g,
      op.tier.operand.Reads env t f u ∧ op.build e₀ f = .ok g ∧ op.tier.ReadsMore env g u e r := by
  have haccept := accept_eq_some_iff.2 h
  -- The second operator of a tier is looked for only after the first one was not found.
  have hother : ∀ m : Mark, m ≠ op.mark → accept m.byte s = none := by
    intro m hm
    refine accept_eq_none_iff.2 fun u hu => hm ?_
    cases (hu.unique h).1
    rfl
  cases op with
  | plus =>
    rw [Operator.tier, Tier.ReadsMore, exprTail]
    split
    · rename_i u hu
      cases haccept.symm.trans hu
      exact reads_round_iff
    · rename_i hu
      cases haccept.symm.trans hu
  | minus =>
    rw [Operator.tier, Tier.ReadsMore, exprTail]
    split
    · rename_i u hu
      cases (hother .plus (by decide)).symm.trans hu
    split
    · rename_i u hu
      cases haccept.symm.trans hu
      exact reads_round_iff
    · rename_i hu
      cases haccept.symm.trans hu
  | times =>
    rw [Operator.tier, Tier.ReadsMore, termTail]
    split
    · rename_i u hu
      cases haccept.symm.trans hu
      exact reads_round_iff
    · rename_i hu
      cases haccept.symm.trans hu
  | slash =>
    rw [Operator.tier, Tier.ReadsMore, termTail]
    split
    · rename_i u hu
      cases (hother .times (by decide)).symm.trans hu
    split
    · rename_i u hu
      cases haccept.symm.trans hu
      exact reads_round_iff
    · rename_i hu
      cases haccept.symm.trans hu

/-- With no operator of the tier next, reading on leaves everything as it is. -/
lemma readsMore_done_iff (h : ∀ op : Operator, op.tier = tier → ∀ t, ¬Next s (.mark op.mark) t) :
    tier.ReadsMore env e₀ s e r ↔ e = e₀ ∧ r = s := by
  have hnone : ∀ op : Operator, op.tier = tier → accept op.mark.byte s = none :=
    fun op hop => accept_eq_none_iff.2 (h op hop)
  cases tier with
  | sum =>
    rw [Tier.ReadsMore, exprTail]
    split
    · rename_i u hu
      cases (hnone .plus rfl).symm.trans hu
    split
    · rename_i u hu
      cases (hnone .minus rfl).symm.trans hu
    exact reads_ok_iff
  | product =>
    rw [Tier.ReadsMore, termTail]
    split
    · rename_i u hu
      cases (hnone .times rfl).symm.trans hu
    split
    · rename_i u hu
      cases (hnone .slash rfl).symm.trans hu
    exact reads_ok_iff

/-! ### Unary expressions and powers -/

/-- Reading an operand and building on it. -/
lemma reads_build_iff {t : Bytes} {x : Except Error (Expr × Rest t)}
    (build : Expr → Except Fault Expr) (bound : ∀ p : Expr × Rest t, P p.2.1) :
    Reads (P := P) (do
      let p ← x
      let g ← liftM (build p.1)
      pure (g, ⟨p.2.1, bound p⟩)) e r ↔
    ∃ f, Reads x f r ∧ build f = .ok e := by
  constructor
  · rintro ⟨h, hx⟩
    obtain ⟨⟨f, u, hu⟩, hread, hx⟩ := bind_eq_ok_iff.1 hx
    obtain ⟨g, hg, hx⟩ := bind_eq_ok_iff.1 hx
    cases hx
    exact ⟨f, ⟨hu, hread⟩, liftM_eq_ok_iff.1 hg⟩
  · rintro ⟨f, ⟨hr, hread⟩, hbuild⟩
    refine ⟨bound (f, ⟨r, hr⟩), ?_⟩
    rw [hread, ok_bind, hbuild]
    rfl

/-- Behind a minus, a unary expression is the negation of one. -/
lemma reads_unary_minus_iff {t : Bytes} (h : Next s (.mark .minus) t) :
    Part.unary.Reads env s e r ↔ ∃ f, Part.unary.Reads env t f r ∧ negated f = .ok e := by
  have haccept := accept_eq_some_iff.2 h
  simp only [Part.Reads]
  rw [unary]
  split
  · rename_i u hu
    cases haccept.symm.trans hu
    have hbound : ∀ p : Expr × Rest t, p.2.1.length < s.length := fun p => p.2.2.trans h.length_lt
    refine Iff.trans ?_ (reads_build_iff (P := fun u => u.length < s.length) negated hbound)
    -- The two branches of `negated` are lifted one by one in the reader.
    refine iff_of_eq (congrArg (Parser.Reads · e r) (congrArg _ (funext ?_)))
    rintro ⟨f, u⟩
    cases f <;> rfl
  · rename_i hu
    cases haccept.symm.trans hu

/-- Without a minus, a unary expression is a power. -/
lemma reads_unary_power_iff (h : ∀ t, ¬Next s (.mark .minus) t) :
    Part.unary.Reads env s e r ↔ Part.power.Reads env s e r := by
  have hnone := accept_eq_none_iff.2 h
  simp only [Part.Reads]
  rw [unary]
  split
  · rename_i u hu
    cases hnone.symm.trans hu
  · rfl

/-- A power is a primary expression, raised to a unary one if a hat is next. -/
lemma reads_power_iff : Part.power.Reads env s e r ↔ ∃ f u, Part.primary.Reads env s f u ∧
    ((∃ t g, Next u (.mark .hat) t ∧ Part.unary.Reads env t g r ∧ mkPower f g = .ok e) ∨
      (∀ t, ¬Next u (.mark .hat) t) ∧ e = f ∧ r = u) := by
  simp only [Part.Reads]
  rw [power]
  constructor
  · rintro ⟨h, hx⟩
    obtain ⟨⟨f, u, hu⟩, hread, hx⟩ := bind_eq_ok_iff.1 hx
    refine ⟨f, u, ⟨hu, hread⟩, ?_⟩
    dsimp only at hx
    split at hx
    · rename_i t ht
      obtain ⟨⟨g, r', hr'⟩, hexp, hx⟩ := bind_eq_ok_iff.1 hx
      obtain ⟨p, hp, hx⟩ := bind_eq_ok_iff.1 hx
      cases hx
      exact .inl ⟨t, g, accept_eq_some_iff.1 ht, ⟨hr', hexp⟩, liftM_eq_ok_iff.1 hp⟩
    · rename_i hnone
      cases hx
      exact .inr ⟨accept_eq_none_iff.1 hnone, rfl, rfl⟩
  · rintro ⟨f, u, ⟨hu, hread⟩, hrest⟩
    rcases hrest with ⟨t, g, ht, ⟨hr, hexp⟩, hpow⟩ | ⟨hnone, rfl, rfl⟩
    · have haccept := accept_eq_some_iff.2 ht
      refine ⟨hr.trans (ht.length_lt.trans hu), bind_eq_ok_iff.2 ⟨_, hread, ?_⟩⟩
      dsimp only
      split
      · rename_i t' ht'
        cases haccept.symm.trans ht'
        refine bind_eq_ok_iff.2 ⟨_, hexp, ?_⟩
        rw [hpow]
        rfl
      · rename_i hnone
        cases haccept.symm.trans hnone
    · have hnone := accept_eq_none_iff.2 hnone
      refine ⟨hu, bind_eq_ok_iff.2 ⟨_, hread, ?_⟩⟩
      dsimp only
      split
      · rename_i t' ht'
        cases hnone.symm.trans ht'
      · rfl

/-! ### Primaries -/

/-- A reader that failed reads nothing. -/
lemma reads_error_iff {x : Error} :
    Reads (.error x : Except Error (Expr × { r : Bytes // P r })) e r ↔ False := by
  simp [Reads]

/-- A shortened rest is read if it is shorter. -/
lemma reads_shorten_iff {t : Bytes} {f : Expr} :
    Reads (shorten s t f) e r ↔ t.length < s.length ∧ e = f ∧ r = t := by
  rw [shorten]
  split
  · rename_i h
    rw [reads_ok_iff, and_iff_right h]
  · rename_i h
    rw [reads_error_iff, false_iff, not_and]
    exact fun h' => absurd h' h

/-- The first byte decides what a primary is. -/
lemma reads_primary_cons_iff {c : UInt8} {t : Bytes} (h : skip s = c :: t) :
    Part.primary.Reads env s e r ↔
      if c == 40 then ∃ u, Part.expr.Reads env t e u ∧ Next u (.mark .closing) r
      else if Bytes.isDigit c || c == 46 then number env (c :: t) = .ok (e, r)
      else if Bytes.isLetter c then
        Reads (call env (word (c :: t)) ((c :: t).drop (word (c :: t)).length)) e r
      else False := by
  have hlen := length_skip_le s
  rw [h, List.length_cons] at hlen
  simp only [Part.Reads]
  rw [primary]
  split
  · rename_i hnil
    cases h.symm.trans hnil
  rename_i c' t' hcons
  cases h.symm.trans hcons
  -- The cases of the reader: a parenthesis, a number, a name, and two kinds of refusal.
  split
  · constructor
    · rintro ⟨hr, hx⟩
      obtain ⟨⟨f, u, hu⟩, hread, hx⟩ := bind_eq_ok_iff.1 hx
      obtain ⟨⟨r', hr'⟩, hclose, hx⟩ := bind_eq_ok_iff.1 hx
      cases hx
      exact ⟨u, ⟨hu, hread⟩, expect_eq_ok_iff.1 hclose⟩
    · rintro ⟨u, ⟨hu, hread⟩, hclose⟩
      have hr := hclose.length_lt
      refine ⟨by omega, bind_eq_ok_iff.2 ⟨_, hread, bind_eq_ok_iff.2 ⟨⟨r, hr⟩, ?_, rfl⟩⟩⟩
      exact (expect_eq_ok_iff (m := .closing)).2 hclose
  split
  · rename_i hnumber
    constructor
    · rintro ⟨hr, hx⟩
      obtain ⟨⟨f, u⟩, hread, hx⟩ := bind_eq_ok_iff.1 hx
      obtain ⟨-, rfl, rfl⟩ := reads_shorten_iff.1 ⟨hr, hx⟩
      exact hread
    · intro hread
      obtain ⟨x, hx, -⟩ := (number_eq_ok_iff hnumber).1 hread
      have hr := hx.length_lt
      rw [List.length_cons] at hr
      rw [hread]
      exact reads_shorten_iff.2 ⟨by omega, rfl, rfl⟩
  split
  · rename_i hletter
    -- A name takes its first letter at least, and so the call may leave all that follows the name.
    have hword : word (c :: t) = c :: word t := by
      simp [word, hletter]
    have hdrop : (c :: t).drop (word (c :: t)).length = t.drop ((word (c :: t)).length - 1) := by
      rw [hword, List.length_cons, List.drop_succ_cons, Nat.add_sub_cancel]
    rw [hdrop]
    constructor
    · rintro ⟨hr, hx⟩
      obtain ⟨⟨f, u, hu⟩, hread, hx⟩ := bind_eq_ok_iff.1 hx
      cases hx
      exact ⟨hu, hread⟩
    · rintro ⟨hr, hread⟩
      refine ⟨?_, bind_eq_ok_iff.2 ⟨_, hread, rfl⟩⟩
      rw [List.length_drop] at hr
      omega
  split
  · exact reads_error_iff
  · exact reads_error_iff

/-- There is no primary expression at the end. -/
lemma not_reads_primary_of_nil (h : skip s = []) : ¬Part.primary.Reads env s e r := by
  simp only [Part.Reads]
  rw [primary]
  split
  · exact reads_error_iff.1
  · rename_i hcons
    cases h.symm.trans hcons

/-- A primary is an expression in parentheses, a number, or what a name stands for. -/
lemma reads_primary_iff : Part.primary.Reads env s e r ↔
    (∃ t u, Next s (.mark .opening) t ∧ Part.expr.Reads env t e u ∧ Next u (.mark .closing) r) ∨
    (∃ x, Next s (.number x) r ∧ e = Expr.number x) ∨
    ∃ w t, Next s (.name w) t ∧ Reads (call env w t) e r := by
  constructor
  · intro h
    cases hs : skip s with
    | nil => exact absurd h (not_reads_primary_of_nil hs)
    | cons c t =>
      rw [reads_primary_cons_iff hs] at h
      split at h
      · rename_i hc
        obtain ⟨u, hread, hclose⟩ := h
        refine .inl ⟨t, u, lexeme_mark_iff.2 ?_, hread, hclose⟩
        rw [hs, eq_of_beq hc]
        rfl
      split at h
      · rename_i hc
        obtain ⟨x, hx, rfl⟩ := (number_eq_ok_iff hc).1 h
        exact .inr (.inl ⟨x, by rwa [Next, hs], rfl⟩)
      split at h
      · rename_i hc
        refine .inr (.inr ⟨_, _, ?_, h⟩)
        rw [Next, hs]
        exact .name (longest_word hc)
      · exact h.elim
  · intro h
    rcases h with ⟨t, u, hopen, hread, hclose⟩ | ⟨x, hx, rfl⟩ | ⟨w, t, hw, hread⟩
    · rw [reads_primary_cons_iff (lexeme_mark_iff.1 hopen)]
      exact ⟨u, hread, hclose⟩
    · obtain ⟨c, t, hs, hc⟩ := Lexeme.head hx
      simp only [Token.StartsWith] at hc
      have hopen : ¬(c == 40) := by
        intro h
        cases eq_of_beq h
        exact absurd hc (Mark.not_digit .opening)
      rw [Next, hs] at hx
      rw [reads_primary_cons_iff hs, if_neg hopen, if_pos hc]
      exact (number_eq_ok_iff hc).2 ⟨x, hx, rfl⟩
    · obtain ⟨c, t', hs, hc⟩ := Lexeme.head hw
      simp only [Token.StartsWith] at hc
      have hopen : ¬(c == 40) := by
        intro h
        cases eq_of_beq h
        exact absurd hc (Mark.not_letter .opening)
      rw [Next, hs, lexeme_name_iff] at hw
      obtain ⟨-, rfl, rfl⟩ := hw
      rw [reads_primary_cons_iff hs, if_neg hopen, if_neg (not_letter_and_digit hc), if_pos hc]
      exact hread

/-! ### Labels -/

/-- A word of letters is a name. -/
lemma next_letters_iff {w t : Bytes} :
    (Next s (.name w) t ∧ ∀ b ∈ w, Bytes.isLetter b) ↔
      w = word (skip s) ∧ t = (skip s).drop (word (skip s)).length ∧ w ≠ [] ∧
        ∀ b ∈ w, Bytes.isLetter b := by
  rw [Next, lexeme_name_iff]
  constructor
  · rintro ⟨⟨⟨c, u, hs, hc⟩, rfl, rfl⟩, hletters⟩
    refine ⟨rfl, rfl, ?_, hletters⟩
    rw [hs, word, List.takeWhile_cons_of_pos (by simp [hc])]
    exact List.cons_ne_nil _ _
  · rintro ⟨rfl, rfl, hne, hletters⟩
    refine ⟨⟨?_, rfl, rfl⟩, hletters⟩
    obtain ⟨c, v, hw⟩ := List.exists_cons_of_ne_nil hne
    obtain ⟨u, hu⟩ : c :: v <+: skip s := hw ▸ List.takeWhile_prefix _
    exact ⟨c, v ++ u, hu.symm, hletters c (hw ▸ List.mem_cons_self)⟩

/-- The labels are a word of letters, and more words behind commas, up to a closing bracket. -/
lemma labelWords_succ_iff {fuel : Nat} {sofar ls : Index} :
    labelWords env (fuel + 1) sofar s = .ok (ls, r) ↔
      ∃ w t, (Next s (.name w) t ∧ ∀ b ∈ w, Bytes.isLetter b) ∧
        (sofar ++ w).length ≤ Index.capacity ∧
        ((Next t (.mark .closing) r ∧ ls = sofar ++ w) ∨
          ∃ u, Next t (.mark .comma) u ∧ labelWords env fuel (sofar ++ w) u = .ok (ls, r)) := by
  simp only [next_letters_iff]
  rw [labelWords]
  dsimp only
  constructor
  · intro h
    split at h
    · cases h
    rename_i hne
    split at h
    · cases h
    rename_i hfind
    have hletters : ∀ b ∈ word (skip s), Bytes.isLetter b := by
      simpa using List.find?_eq_none.1 hfind
    split at h
    · cases h
    rename_i hcap
    refine ⟨_, _, ⟨rfl, rfl, by simpa using hne, hletters⟩, Nat.le_of_not_lt hcap, ?_⟩
    split at h
    · rename_i after hclose
      cases h
      exact .inl ⟨(accept_eq_some_iff (m := .closing)).1 hclose, rfl⟩
    · obtain ⟨⟨u, hu⟩, hcomma, h⟩ := bind_eq_ok_iff.1 h
      exact .inr ⟨u, (expect_eq_ok_iff (m := .comma)).1 hcomma, h⟩
  · rintro ⟨_, _, ⟨rfl, rfl, hne, hletters⟩, hcap, hrest⟩
    have hfind : ((word (skip s)).find? fun b => !Bytes.isLetter b) = none := by
      simpa using hletters
    rw [if_neg (by simpa using hne), hfind]
    dsimp only
    rw [if_neg (Nat.not_lt_of_le hcap)]
    rcases hrest with ⟨hclose, rfl⟩ | ⟨u, hcomma, h⟩
    · have haccept : accept 41 _ = _ := (accept_eq_some_iff (m := .closing)).2 hclose
      rw [haccept]
    · have haccept : accept 41 _ = _ := (accept_eq_none_iff (m := .closing)).2 fun v hv => by
        cases (hv.unique hcomma).1
      rw [haccept]
      exact bind_eq_ok_iff.2 ⟨⟨u, hcomma.length_lt⟩, (expect_eq_ok_iff (m := .comma)).2 hcomma, h⟩

/-- A list of labels is empty, or it is words up to a closing bracket. -/
lemma labels_eq_ok_iff {ls : Index} : labels env s = .ok (ls, r) ↔
    (Next s (.mark .closing) r ∧ ls = []) ∨
      (∀ t, ¬Next s (.mark .closing) t) ∧ labelWords env (s.length + 1) [] s = .ok (ls, r) := by
  rw [labels]
  split
  · rename_i t ht
    have hclose := (accept_eq_some_iff (m := .closing)).1 ht
    constructor
    · intro h
      cases h
      exact .inl ⟨hclose, rfl⟩
    · rintro (⟨hclose', rfl⟩ | ⟨hno, -⟩)
      · rw [(hclose.unique hclose').2]
      · exact absurd hclose (hno t)
  · rename_i hnone
    have hno := (accept_eq_none_iff (m := .closing)).1 hnone
    simp [hno]

/-- Words of labels use some of the text. -/
lemma length_lt_of_labelWords {fuel : Nat} {sofar ls : Index}
    (h : labelWords env fuel sofar s = .ok (ls, r)) : r.length < s.length := by
  induction fuel generalizing sofar s with
  | zero => cases h
  | succ fuel ih =>
    obtain ⟨w, t, ⟨hw, -⟩, -, hrest⟩ := labelWords_succ_iff.1 h
    rcases hrest with ⟨hclose, -⟩ | ⟨u, hcomma, h⟩
    · exact hclose.length_lt.trans hw.length_lt
    · exact (ih h).trans (hcomma.length_lt.trans hw.length_lt)

/-- A list of labels uses some of the text. -/
lemma length_lt_of_labels {ls : Index} (h : labels env s = .ok (ls, r)) : r.length < s.length := by
  rcases labels_eq_ok_iff.1 h with ⟨hclose, -⟩ | ⟨-, h⟩
  · exact hclose.length_lt
  · exact length_lt_of_labelWords h

/-! ### Names -/

/-- One operand is an expression in brackets. -/
lemma reads_single_iff {name : Bytes} : Reads (single env name s) e r ↔
    ∃ t u, Next s (.mark .opening) t ∧ Part.expr.Reads env t e u ∧ Next u (.mark .closing) r := by
  rw [single]
  constructor
  · rintro ⟨h, hx⟩
    obtain ⟨⟨t, ht⟩, hopen, hx⟩ := bind_eq_ok_iff.1 hx
    obtain ⟨⟨f, u, hu⟩, hread, hx⟩ := bind_eq_ok_iff.1 hx
    obtain ⟨⟨r', hr'⟩, hclose, hx⟩ := bind_eq_ok_iff.1 hx
    cases hx
    exact ⟨t, u, (expect_eq_ok_iff (m := .opening)).1 (within_eq_ok_iff.1 hopen), ⟨hu, hread⟩,
      (expect_eq_ok_iff (m := .closing)).1 hclose⟩
  · rintro ⟨t, u, hopen, ⟨hu, hread⟩, hclose⟩
    refine ⟨(hclose.length_lt.trans hu).trans hopen.length_lt, ?_⟩
    refine bind_eq_ok_iff.2 ⟨⟨t, hopen.length_lt⟩, ?_, bind_eq_ok_iff.2 ⟨_, hread, ?_⟩⟩
    · exact within_eq_ok_iff.2 ((expect_eq_ok_iff (m := .opening)).2 hopen)
    · exact bind_eq_ok_iff.2 ⟨⟨r, hclose.length_lt⟩, (expect_eq_ok_iff (m := .closing)).2 hclose, rfl⟩

/-- An operand with labels is an expression in brackets, with a list of labels behind a comma or none.
-/
lemma withLabels_eq_ok_iff {name : Bytes} {ls : Index} :
    (∃ h, withLabels env name s = .ok (e, ls, ⟨r, h⟩)) ↔
      ∃ t u, Next s (.mark .opening) t ∧ Part.expr.Reads env t e u ∧
        ((∃ v, Next u (.mark .comma) v ∧ labels env v = .ok (ls, r)) ∨
          Next u (.mark .closing) r ∧ ls = []) := by
  rw [withLabels]
  constructor
  · rintro ⟨h, hx⟩
    obtain ⟨⟨t, ht⟩, hopen, hx⟩ := bind_eq_ok_iff.1 hx
    obtain ⟨⟨f, u, hu⟩, hread, hx⟩ := bind_eq_ok_iff.1 hx
    have hopen := (expect_eq_ok_iff (m := .opening)).1 (within_eq_ok_iff.1 hopen)
    dsimp only at hx
    split at hx
    · obtain ⟨⟨r', hr'⟩, hclose, hx⟩ := bind_eq_ok_iff.1 hx
      cases hx
      exact ⟨t, u, hopen, ⟨hu, hread⟩, .inr ⟨(expect_eq_ok_iff (m := .closing)).1 hclose, rfl⟩⟩
    · rename_i v hcomma
      obtain ⟨⟨ls', r'⟩, hlabels, hx⟩ := bind_eq_ok_iff.1 hx
      obtain ⟨⟨f', u', hu'⟩, hshorten, hx⟩ := bind_eq_ok_iff.1 hx
      cases hx
      obtain ⟨-, rfl, rfl⟩ := reads_shorten_iff.1 ⟨_, hshorten⟩
      exact ⟨t, u, hopen, ⟨hu, hread⟩, .inl ⟨v, (accept_eq_some_iff (m := .comma)).1 hcomma, hlabels⟩⟩
  · rintro ⟨t, u, hopen, ⟨hu, hread⟩, hrest⟩
    have hopen' : Except.within (.call name) (expect env 40 s) = .ok ⟨t, hopen.length_lt⟩ :=
      within_eq_ok_iff.2 ((expect_eq_ok_iff (m := .opening)).2 hopen)
    rcases hrest with ⟨v, hcomma, hlabels⟩ | ⟨hclose, rfl⟩
    · have hr := length_lt_of_labels hlabels
      have hlt : r.length < s.length :=
        ((hr.trans hcomma.length_lt).trans hu).trans hopen.length_lt
      refine ⟨hlt, bind_eq_ok_iff.2 ⟨_, hopen', bind_eq_ok_iff.2 ⟨_, hread, ?_⟩⟩⟩
      have haccept : accept 44 u = _ := (accept_eq_some_iff (m := .comma)).2 hcomma
      dsimp only
      rw [haccept]
      obtain ⟨h, hshorten⟩ := reads_shorten_iff.2 ⟨hlt, rfl, rfl⟩
      exact bind_eq_ok_iff.2 ⟨_, hlabels, bind_eq_ok_iff.2 ⟨_, hshorten, rfl⟩⟩
    · have hlt : r.length < s.length := (hclose.length_lt.trans hu).trans hopen.length_lt
      refine ⟨hlt, bind_eq_ok_iff.2 ⟨_, hopen', bind_eq_ok_iff.2 ⟨_, hread, ?_⟩⟩⟩
      have haccept : accept 44 u = _ := (accept_eq_none_iff (m := .comma)).2 fun v hv => by
        cases (hv.unique hclose).1
      dsimp only
      rw [haccept]
      exact bind_eq_ok_iff.2 ⟨⟨r, hclose.length_lt⟩, (expect_eq_ok_iff (m := .closing)).2 hclose, rfl⟩

/-- A symbol is read as its labels and then built. -/
lemma reads_labels_iff (build : Index → Except Fault Expr)
    {bound : ∀ q : Expr × Rest s, q.2.1.length ≤ s.length} :
    Reads (P := fun u => u.length ≤ s.length) (do
      let t ← expect env 40 s
      let p ← labels env t.1
      let f ← liftM (build p.1)
      let q ← shorten s p.2 f
      pure (q.1, ⟨q.2.1, bound q⟩)) e r ↔
    ∃ t ls, Next s (.mark .opening) t ∧ labels env t = .ok (ls, r) ∧ build ls = .ok e := by
  constructor
  · rintro ⟨h, hx⟩
    obtain ⟨⟨t, ht⟩, hopen, hx⟩ := bind_eq_ok_iff.1 hx
    obtain ⟨⟨ls, u⟩, hlabels, hx⟩ := bind_eq_ok_iff.1 hx
    obtain ⟨f, hf, hx⟩ := bind_eq_ok_iff.1 hx
    obtain ⟨⟨f', u', hu'⟩, hshorten, hx⟩ := bind_eq_ok_iff.1 hx
    cases hx
    obtain ⟨-, rfl, rfl⟩ := reads_shorten_iff.1 ⟨_, hshorten⟩
    exact ⟨t, ls, (expect_eq_ok_iff (m := .opening)).1 hopen, hlabels, liftM_eq_ok_iff.1 hf⟩
  · rintro ⟨t, ls, hopen, hlabels, hbuild⟩
    have hlt : r.length < s.length := (length_lt_of_labels hlabels).trans hopen.length_lt
    obtain ⟨h, hshorten⟩ := reads_shorten_iff.2 ⟨hlt, rfl, rfl⟩
    refine ⟨hlt.le, bind_eq_ok_iff.2 ⟨⟨t, hopen.length_lt⟩, ?_, bind_eq_ok_iff.2 ⟨_, hlabels, ?_⟩⟩⟩
    · exact (expect_eq_ok_iff (m := .opening)).2 hopen
    · exact bind_eq_ok_iff.2 ⟨e, by rw [hbuild]; rfl, bind_eq_ok_iff.2 ⟨_, hshorten, rfl⟩⟩

/-- An operation with labels is read as its operand and the labels and then built. -/
lemma reads_labelling_iff {name : Bytes} {build : Expr → Index → Except Fault Expr}
    (bound : ∀ p : Expr × Index × Rest s, P p.2.2.1) :
    Reads (P := P) (do
      let p ← withLabels env name s
      let g ← liftM (build p.1 p.2.1)
      pure (g, ⟨p.2.2.1, bound p⟩)) e r ↔
    ∃ f ls, (∃ h, withLabels env name s = .ok (f, ls, ⟨r, h⟩)) ∧ build f ls = .ok e := by
  constructor
  · rintro ⟨h, hx⟩
    obtain ⟨⟨f, ls, u, hu⟩, hread, hx⟩ := bind_eq_ok_iff.1 hx
    obtain ⟨g, hg, hx⟩ := bind_eq_ok_iff.1 hx
    cases hx
    exact ⟨f, ls, ⟨hu, hread⟩, liftM_eq_ok_iff.1 hg⟩
  · rintro ⟨f, ls, ⟨hr, hread⟩, hbuild⟩
    refine ⟨bound (f, ls, ⟨r, hr⟩), ?_⟩
    rw [hread, ok_bind, hbuild]
    rfl

/-- Building a derivative refuses an empty direction, so the reader's own refusal adds nothing. -/
lemma reads_derivative_iff {name : Bytes} {bound : ∀ p : Expr × Index × Rest s, P p.2.2.1} :
    Reads (P := P) (do
      let p ← withLabels env name s
      if p.2.1.isEmpty then env.fail p.2.2.1 .noDirection
      else do
        let g ← liftM (mkDerivative p.1 p.2.1)
        pure (g, ⟨p.2.2.1, bound p⟩)) e r ↔
    ∃ f ls, (∃ h, withLabels env name s = .ok (f, ls, ⟨r, h⟩)) ∧ mkDerivative f ls = .ok e := by
  rw [← reads_labelling_iff bound]
  cases withLabels env name s with
  | error x => rfl
  | ok p =>
    obtain ⟨f, ls, u⟩ := p
    simp only [ok_bind]
    split
    · rename_i hempty
      rw [List.isEmpty_iff.1 hempty]
      exact reads_error_iff.trans reads_error_iff.symm
    · rfl

/-- A tensor is read as its labels, or as nothing if its order is zero. Building the leaf refuses too
few labels, so the reader's own refusal adds nothing. -/
lemma reads_tensor_iff {name : Bytes} {a : Tensor}
    {bound : ∀ q : Expr × Rest s, q.2.1.length ≤ s.length} :
    Reads (P := fun u => u.length ≤ s.length) (match accept 40 s with
      | none =>
        if a.order = 0 then do
          let f ← liftM (mkReference a)
          pure (f, ⟨s, Nat.le_refl _⟩)
        else env.fail (skip s) (.bareTensor name a.order)
      | some t => do
        let p ← labels env t
        if p.1.length < a.order then env.fail p.2 (.boundTensor name a.order p.1)
        else do
          let f ← liftM (mkLeaf a p.1)
          let q ← shorten s p.2 f
          pure (q.1, ⟨q.2.1, bound q⟩)) e r ↔
    (∃ t ls, Next s (.mark .opening) t ∧ labels env t = .ok (ls, r) ∧ mkLeaf a ls = .ok e) ∨
      a.order = 0 ∧ (∀ t, ¬Next s (.mark .opening) t) ∧ r = s ∧ mkReference a = .ok e := by
  split
  · rename_i hnone
    have hno := (accept_eq_none_iff (m := .opening)).1 hnone
    constructor
    · rintro ⟨h, hx⟩
      split at hx
      · rename_i horder
        obtain ⟨g, hg, hx⟩ := bind_eq_ok_iff.1 hx
        cases hx
        exact .inr ⟨horder, hno, rfl, liftM_eq_ok_iff.1 hg⟩
      · cases hx
    · rintro (⟨t, ls, hopen, -, -⟩ | ⟨horder, -, rfl, hbuild⟩)
      · exact absurd hopen (hno t)
      · rw [if_pos horder, hbuild]
        exact ⟨Nat.le_refl _, rfl⟩
  · rename_i t ht
    have hopen := (accept_eq_some_iff (m := .opening)).1 ht
    constructor
    · rintro ⟨h, hx⟩
      obtain ⟨⟨ls, u⟩, hlabels, hx⟩ := bind_eq_ok_iff.1 hx
      dsimp only at hx
      split at hx
      · cases hx
      · obtain ⟨f, hf, hx⟩ := bind_eq_ok_iff.1 hx
        obtain ⟨⟨f', u', hu'⟩, hshorten, hx⟩ := bind_eq_ok_iff.1 hx
        cases hx
        obtain ⟨-, rfl, rfl⟩ := reads_shorten_iff.1 ⟨_, hshorten⟩
        exact .inl ⟨t, ls, hopen, hlabels, liftM_eq_ok_iff.1 hf⟩
    · rintro (⟨t', ls, hopen', hlabels, hbuild⟩ | ⟨-, hno, -, -⟩)
      · obtain ⟨-, rfl⟩ := hopen.unique hopen'
        have hlt : r.length < s.length := (length_lt_of_labels hlabels).trans hopen.length_lt
        obtain ⟨h, hshorten⟩ := reads_shorten_iff.2 ⟨hlt, rfl, rfl⟩
        -- The refusal of the reader is never reached where the leaf can be built.
        have horder : ¬ls.length < a.order := by
          intro hfew
          rw [mkLeaf, if_neg (Nat.not_le_of_lt hfew)] at hbuild
          cases hbuild
        refine ⟨hlt.le, bind_eq_ok_iff.2 ⟨_, hlabels, ?_⟩⟩
        dsimp only
        rw [if_neg horder]
        exact bind_eq_ok_iff.2 ⟨e, liftM_eq_ok_iff.2 hbuild, bind_eq_ok_iff.2 ⟨_, hshorten, rfl⟩⟩
      · exact absurd hopen (hno t)

/-- What follows a name depends on what the name stands for. -/
lemma reads_call_iff {w : Bytes} : Reads (call env w s) e r ↔
    match resolve env.scope w with
    | some (.operation k) => ∃ f, Reads (single env w s) f r ∧ k.build f = .ok e
    | some (.labelling k) => ∃ f ls, (∃ h, withLabels env w s = .ok (f, ls, ⟨r, h⟩)) ∧
        k.build f ls = .ok e
    | some (.symbol k) =>
        (∃ t ls, Next s (.mark .opening) t ∧ labels env t = .ok (ls, r) ∧ k.build ls = .ok e) ∨
        ∃ a, k = .tensor a ∧ a.order = 0 ∧ (∀ t, ¬Next s (.mark .opening) t) ∧ r = s ∧
          mkReference a = .ok e
    | none => False := by
  rw [call]
  split
  · rename_i f hf
    rw [resolve_of_function hf]
    exact reads_build_iff _ _
  rename_i hf
  split
  · rename_i hw
    rw [resolve_of_reserved hf (m := .labelling .derivative) (hw ▸ rfl)]
    exact reads_derivative_iff
  split
  · rename_i hw
    rw [resolve_of_reserved hf (m := .labelling .bind) (hw ▸ rfl)]
    exact reads_labelling_iff _
  split
  · rename_i hw
    rw [resolve_of_reserved hf (m := .operation .symmetrize) (hw ▸ rfl)]
    exact reads_build_iff _ _
  split
  · rename_i hw
    rw [Bool.or_eq_true, decide_eq_true_eq, decide_eq_true_eq] at hw
    rcases hw with rfl | rfl
    · rw [resolve_of_reserved hf (m := .symbol .delta) rfl]
      simp only [↓reduceIte]
      refine (reads_labels_iff mkDelta).trans ?_
      simp [Symbol.build]
    · have hne : Bytes.ofString "epsilon" ≠ Bytes.ofString "delta" := by decide
      rw [resolve_of_reserved hf (m := .symbol .epsilon) rfl]
      simp only [hne, ↓reduceIte]
      refine (reads_labels_iff mkEpsilon).trans ?_
      simp [Symbol.build]
  -- Neither a function nor reserved: only now is the name looked up among the tensors.
  rename_i hD hbind hsym hother
  have hreserved : reserved.lookup w = none := by
    rw [Bool.or_eq_true, decide_eq_true_eq, decide_eq_true_eq, not_or] at hother
    rw [List.lookup_eq_none_iff]
    simp [reserved, hD, hbind, hsym, hother]
  rw [resolve_of_tensor hf hreserved]
  cases env.scope.lookup w with
  | none => exact reads_error_iff
  | some a =>
    refine reads_tensor_iff.trans ?_
    simp [Symbol.build]

end

end Indicial.Expr.Parser
