import Indicial.Proofs.Expr.Readers

/-!
# Reading accepts exactly the grammar

What a reader takes from a text is a phrase of the grammar, and the expression that it returns is
built from the tree of the phrase (`Part.Reads.explained`). Conversely a phrase at the front of a text
is read in full, if it can be built and does not go on in the text (`Phrase.reads`). So reading a
whole text succeeds exactly on the sentences whose trees can be built, and since a sentence has one
tree, the result is the expression of that tree (`parse_recognizes`).
-/

namespace Indicial.Expr.Parser

variable {env : Env} {scope : Scope} {part : Part} {tier : Tier} {s r : Bytes} {e : Expr}
  {t u : ParseTree} {ts us vs : List Token} {labels : Index}

/-! ### Labels -/

/-- Words are read as the letters of all of them. -/
lemma Words.reads (env : Env) (h : Words us labels) {fuel : Nat} {sofar : Index} (hfuel : s.length < fuel)
    (hcap : (sofar ++ labels).length ≤ Index.capacity)
    (hs : Spelled s (us ++ .mark .closing :: vs)) :
    ∃ r, labelWords env fuel sofar s = .ok (sofar ++ labels, r) ∧ Spelled r vs := by
  induction h generalizing s sofar fuel with
  | last hw =>
    obtain ⟨t, hname, hs⟩ := spelled_cons_iff.1 hs
    obtain ⟨r, hclose, hr⟩ := spelled_cons_iff.1 hs
    obtain ⟨fuel, rfl⟩ := Nat.exists_eq_succ_of_ne_zero (Nat.ne_of_gt (Nat.zero_lt_of_lt hfuel))
    exact ⟨r, labelWords_succ_iff.2 ⟨_, t, ⟨hname, hw⟩, hcap, .inl ⟨hclose, rfl⟩⟩, hr⟩
  | @cons w us labels hw _ ih =>
    obtain ⟨t, hname, hs⟩ := spelled_cons_iff.1 hs
    obtain ⟨u, hcomma, hs⟩ := spelled_cons_iff.1 hs
    obtain ⟨fuel, rfl⟩ := Nat.exists_eq_succ_of_ne_zero (Nat.ne_of_gt (Nat.zero_lt_of_lt hfuel))
    have hlt := hcomma.length_lt.trans hname.length_lt
    rw [← List.append_assoc] at hcap ⊢
    have hfuel' : u.length < fuel := by omega
    obtain ⟨r, hread, hr⟩ := ih hfuel' hcap hs
    have hcap' : (sofar ++ w).length ≤ Index.capacity := by
      rw [List.length_append] at hcap
      omega
    exact ⟨r, labelWords_succ_iff.2 ⟨w, t, ⟨hname, hw⟩, hcap', .inr ⟨u, hcomma, hread⟩⟩, hr⟩

/-- A list of labels is read as its letters. -/
lemma LabelList.reads (env : Env) (h : LabelList us labels) (hs : Spelled s (us ++ .mark .closing :: vs)) :
    ∃ r, Parser.labels env s = .ok (labels, r) ∧ Spelled r vs := by
  obtain ⟨⟨rfl, rfl⟩ | hwords, hcap⟩ := h
  · obtain ⟨r, hclose, hr⟩ := spelled_cons_iff.1 hs
    exact ⟨r, labels_eq_ok_iff.2 (.inl ⟨hclose, rfl⟩), hr⟩
  · rw [← List.nil_append labels] at hcap
    obtain ⟨r, hread, hr⟩ := hwords.reads env (Nat.lt_succ_self _) hcap hs
    refine ⟨r, labels_eq_ok_iff.2 (.inr ⟨hs.not_next ?_, hread⟩), hr⟩
    cases hwords <;> exact nofun

/-- What is read as labels is words. -/
lemma exists_words {fuel : Nat} {sofar : Index} (h : labelWords env fuel sofar s = .ok (labels, r)) :
    ∃ us new, Words us new ∧ labels = sofar ++ new ∧ labels.length ≤ Index.capacity ∧
      ∀ vs, Spelled r vs → Spelled s (us ++ .mark .closing :: vs) := by
  induction fuel generalizing s sofar with
  | zero => cases h
  | succ fuel ih =>
    obtain ⟨w, t, ⟨hname, hw⟩, hcap, ⟨hclose, rfl⟩ | ⟨u, hcomma, h⟩⟩ := labelWords_succ_iff.1 h
    · refine ⟨_, w, .last hw, rfl, hcap, fun vs hvs => ?_⟩
      exact spelled_cons_iff.2 ⟨t, hname, spelled_cons_iff.2 ⟨r, hclose, hvs⟩⟩
    · obtain ⟨us, new, hwords, rfl, hcap, hspelled⟩ := ih h
      refine ⟨_, w ++ new, .cons hw hwords, List.append_assoc _ _ _, hcap, fun vs hvs => ?_⟩
      exact spelled_cons_iff.2 ⟨t, hname, spelled_cons_iff.2 ⟨u, hcomma, hspelled vs hvs⟩⟩

/-- What is read as a list of labels is one. -/
lemma exists_labelList (h : Parser.labels env s = .ok (labels, r)) :
    ∃ us, LabelList us labels ∧ ∀ vs, Spelled r vs → Spelled s (us ++ .mark .closing :: vs) := by
  rcases labels_eq_ok_iff.1 h with ⟨hclose, rfl⟩ | ⟨-, h⟩
  · exact ⟨[], ⟨.inl ⟨rfl, rfl⟩, Nat.zero_le _⟩, fun vs hvs => spelled_cons_iff.2 ⟨r, hclose, hvs⟩⟩
  · obtain ⟨us, new, hwords, rfl, hcap, hspelled⟩ := exists_words h
    exact ⟨us, ⟨.inr hwords, hcap⟩, hspelled⟩

/-! ### What is read is a phrase -/

/-- The text from `s` down to `r` is a part of the grammar whose tree gives the expression. -/
def Explained (scope : Scope) (part : Part) (s : Bytes) (e : Expr) (r : Bytes) : Prop :=
  ∃ ts t, Phrase scope part ts t ∧ t.build = .ok e ∧ ∀ vs, Spelled r vs → Spelled s (ts ++ vs)

section Sound

-- Texts shorter than `s` are explained already. Every reader but those for a first operand calls the
-- others on such texts, and those are taken in their order below.
variable (ih : ∀ {part : Part} {t : Bytes} {e : Expr} {r : Bytes}, t.length < s.length →
  part.Reads env t e r → Explained env.scope part t e r)
include ih

/-- What follows a name, up to its closing parenthesis. -/
lemma explained_call {w s' : Bytes} (hw : Next s (.name w) s') (h : Reads (call env w s') e r) :
    Explained env.scope .primary s e r := by
  have hlt := hw.length_lt
  rw [reads_call_iff] at h
  split at h
  · rename_i k hk
    obtain ⟨f, hsingle, hbuild⟩ := h
    obtain ⟨t, u, hopen, hread, hclose⟩ := reads_single_iff.1 hsingle
    obtain ⟨ts, t, hphrase, hf, hspelled⟩ := ih (hopen.length_lt.trans hlt) hread
    refine ⟨_, .operation k t, .operation hk hphrase, ?_, fun vs hvs => ?_⟩
    · rw [ParseTree.build, hf, ok_bind, hbuild]
    · have hrest := hspelled _ (spelled_cons_iff.2 ⟨r, hclose, hvs⟩)
      rw [List.cons_append, List.cons_append, List.append_assoc]
      exact spelled_cons_iff.2 ⟨s', hw, spelled_cons_iff.2 ⟨_, hopen, hrest⟩⟩
  · rename_i k hk
    obtain ⟨f, labels, hread, hbuild⟩ := h
    obtain ⟨t, u, hopen, hread, hrest⟩ := withLabels_eq_ok_iff.1 hread
    obtain ⟨ts, t, hphrase, hf, hspelled⟩ := ih (hopen.length_lt.trans hlt) hread
    have hbuild' : (ParseTree.labelling k t labels).build = .ok e := by
      rw [ParseTree.build, hf, ok_bind, hbuild]
    rcases hrest with ⟨v, hcomma, hlabels⟩ | ⟨hclose, rfl⟩
    · obtain ⟨us, hlist, hspelled'⟩ := exists_labelList hlabels
      refine ⟨_, _, .labelling hk hphrase hlist, hbuild', fun vs hvs => ?_⟩
      have hrest := hspelled _ (spelled_cons_iff.2 ⟨v, hcomma, hspelled' vs hvs⟩)
      simp only [List.cons_append, List.append_assoc]
      exact spelled_cons_iff.2 ⟨s', hw, spelled_cons_iff.2 ⟨_, hopen, hrest⟩⟩
    · -- Only a relabelling goes without labels: a derivative along none is refused.
      cases k with
      | derivative => cases hbuild
      | bind =>
        refine ⟨_, _, .bind hk hphrase, hbuild', fun vs hvs => ?_⟩
        have hrest := hspelled _ (spelled_cons_iff.2 ⟨r, hclose, hvs⟩)
        rw [List.cons_append, List.cons_append, List.append_assoc]
        exact spelled_cons_iff.2 ⟨s', hw, spelled_cons_iff.2 ⟨_, hopen, hrest⟩⟩
  · rename_i k hk
    rcases h with ⟨t, labels, hopen, hlabels, hbuild⟩ | ⟨a, rfl, horder, -, rfl, hbuild⟩
    · obtain ⟨us, hlist, hspelled⟩ := exists_labelList hlabels
      refine ⟨_, .symbol k labels, .symbol hk hlist, hbuild, fun vs hvs => ?_⟩
      rw [List.cons_append, List.cons_append, List.append_assoc]
      exact spelled_cons_iff.2 ⟨s', hw, spelled_cons_iff.2 ⟨t, hopen, hspelled vs hvs⟩⟩
    · exact ⟨_, .reference a, .reference hk horder, hbuild,
        fun vs hvs => spelled_cons_iff.2 ⟨_, hw, hvs⟩⟩
  · exact h.elim

/-- What is read as a primary expression is one. -/
lemma explained_primary (h : Part.primary.Reads env s e r) :
    Explained env.scope .primary s e r := by
  rcases reads_primary_iff.1 h with ⟨t, u, hopen, hread, hclose⟩ | ⟨x, hx, rfl⟩ | ⟨w, t, hw, hread⟩
  · obtain ⟨ts, t, hphrase, hbuild, hspelled⟩ := ih hopen.length_lt hread
    refine ⟨_, t, .group hphrase, hbuild, fun vs hvs => ?_⟩
    rw [List.cons_append, List.append_assoc]
    exact spelled_cons_iff.2 ⟨_, hopen, hspelled _ (spelled_cons_iff.2 ⟨r, hclose, hvs⟩)⟩
  · exact ⟨_, _, .number, rfl, fun vs hvs => spelled_cons_iff.2 ⟨r, hx, hvs⟩⟩
  · exact explained_call ih hw hread

/-- What is read as a power is one. -/
lemma explained_power (h : Part.power.Reads env s e r) : Explained env.scope .power s e r := by
  obtain ⟨f, u, hbase, hrest⟩ := reads_power_iff.1 h
  obtain ⟨ts, t, hphrase, hf, hspelled⟩ := explained_primary ih hbase
  rcases hrest with ⟨v, g, hhat, hexp, hbuild⟩ | ⟨-, rfl, rfl⟩
  · obtain ⟨us, t', hphrase', hg, hspelled'⟩ := ih (hhat.length_lt.trans (hbase.length_lt nofun)) hexp
    refine ⟨_, .power t t', .raised hphrase hphrase', ?_, fun vs hvs => ?_⟩
    · rw [ParseTree.build, hf, ok_bind, hg, ok_bind, hbuild]
    · rw [List.append_assoc]
      exact hspelled _ (spelled_cons_iff.2 ⟨v, hhat, hspelled' vs hvs⟩)
  · exact ⟨ts, t, .plain hphrase, hf, hspelled⟩

/-- What is read as a unary expression is one. -/
lemma explained_unary (h : Part.unary.Reads env s e r) : Explained env.scope .unary s e r := by
  by_cases hminus : ∃ t, Next s (.mark .minus) t
  · obtain ⟨s', hminus⟩ := hminus
    obtain ⟨f, hread, hbuild⟩ := (reads_unary_minus_iff hminus).1 h
    obtain ⟨ts, t, hphrase, hf, hspelled⟩ := ih hminus.length_lt hread
    refine ⟨_, .negative t, .negative hphrase, ?_, fun vs hvs => ?_⟩
    · rw [ParseTree.build, hf, ok_bind, hbuild]
    · exact spelled_cons_iff.2 ⟨s', hminus, hspelled vs hvs⟩
  · push Not at hminus
    obtain ⟨ts, t, hphrase, hf, hspelled⟩ := explained_power ih ((reads_unary_power_iff hminus).1 h)
    exact ⟨ts, t, .positive hphrase, hf, hspelled⟩

/-- What is read as the rest of a chain is one. -/
lemma explained_more (h : (Part.more tier t).Reads env s e r) :
    Explained env.scope (.more tier t) s e r := by
  obtain ⟨e₀, hleft, h⟩ := h
  by_cases hop : ∃ op : Operator, op.tier = tier ∧ ∃ s', Next s (.mark op.mark) s'
  · obtain ⟨op, rfl, s', hmark⟩ := hop
    obtain ⟨f, s'', g, hoperand, hbuild, hmore⟩ := (readsMore_operator_iff hmark).1 h
    have hlt := hmark.length_lt
    obtain ⟨us, u, hu, hf, hspelled⟩ := ih hlt hoperand
    have hg : (ParseTree.binary op t u).build = .ok g := by
      rw [ParseTree.build, hleft, ok_bind, hf, ok_bind, hbuild]
    have hmore' : (Part.more op.tier (.binary op t u)).Reads env s'' e r := ⟨g, hg, hmore⟩
    have hlt' := (hoperand.length_lt op.tier.operand_ne_more).trans hlt
    obtain ⟨vs, v, hv, he, hspelled'⟩ := ih hlt' hmore'
    refine ⟨_, v, .more rfl hu hv, he, fun ws hws => ?_⟩
    rw [List.cons_append, List.append_assoc]
    exact spelled_cons_iff.2 ⟨s', hmark, hspelled _ (hspelled' ws hws)⟩
  · push Not at hop
    obtain ⟨rfl, rfl⟩ := (readsMore_done_iff hop).1 h
    exact ⟨[], t, .done, hleft, fun vs hvs => hvs⟩

/-- A chain is explained by its first operand and what follows it. -/
lemma explained_chain (tier : Tier) {f : Expr} {s' : Bytes}
    (h : Explained env.scope tier.operand s f s')
    (hlt : s'.length < s.length) (hmore : tier.ReadsMore env f s' e r) :
    ∃ ts us t u, Phrase env.scope tier.operand ts t ∧ Phrase env.scope (.more tier t) us u ∧
      u.build = .ok e ∧ ∀ vs, Spelled r vs → Spelled s (ts ++ us ++ vs) := by
  obtain ⟨ts, t, ht, hf, hspelled⟩ := h
  have hmore' : (Part.more tier t).Reads env s' e r := ⟨f, hf, hmore⟩
  obtain ⟨us, u, hu, he, hspelled'⟩ := ih hlt hmore'
  refine ⟨ts, us, t, u, ht, hu, he, fun vs hvs => ?_⟩
  rw [List.append_assoc]
  exact hspelled _ (hspelled' vs hvs)

/-- What is read as a term is one. -/
lemma explained_term (h : Part.term.Reads env s e r) : Explained env.scope .term s e r := by
  obtain ⟨f, s', hunary, hmore⟩ := reads_term_iff.1 h
  obtain ⟨ts, us, t, u, ht, hu, he, hspelled⟩ :=
    explained_chain ih .product (explained_unary ih hunary) (hunary.length_lt nofun) hmore
  exact ⟨ts ++ us, u, .term ht hu, he, hspelled⟩

/-- What is read as an expression is one. -/
lemma explained_expr (h : Part.expr.Reads env s e r) : Explained env.scope .expr s e r := by
  obtain ⟨f, s', hterm, hmore⟩ := reads_expr_iff.1 h
  obtain ⟨ts, us, t, u, ht, hu, he, hspelled⟩ :=
    explained_chain ih .sum (explained_term ih hterm) (hterm.length_lt nofun) hmore
  exact ⟨ts ++ us, u, .expr ht hu, he, hspelled⟩

end Sound

/-- Whatever is read is a phrase, and the expression is that of its tree. -/
theorem Part.Reads.explained (h : part.Reads env s e r) : Explained env.scope part s e r := by
  induction hn : s.length using Nat.strong_induction_on generalizing part s e r with
  | _ n ih =>
    subst hn
    have ih' : ∀ {part : Part} {t : Bytes} {e : Expr} {r : Bytes}, t.length < s.length →
        part.Reads env t e r → Explained env.scope part t e r :=
      fun hlt h => ih _ hlt h rfl
    cases part with
    | expr => exact explained_expr ih' h
    | term => exact explained_term ih' h
    | unary => exact explained_unary ih' h
    | power => exact explained_power ih' h
    | primary => exact explained_primary ih' h
    | more tier left => exact explained_more ih' h

/-! ### Phrases are read -/

/-- What a chain starts from can be built if the whole chain can. -/
lemma Phrase.exists_left (h : Phrase scope (.more tier t) ts u) (hu : u.build = .ok e) :
    ∃ e₀, t.build = .ok e₀ := by
  generalize hpart : Part.more tier t = part at h
  induction h generalizing t with
  | done =>
    cases hpart
    exact ⟨e, hu⟩
  | more _ _ _ _ ih =>
    cases hpart
    obtain ⟨g, hg⟩ := ih hu rfl
    obtain ⟨e₀, he₀, -⟩ := bind_eq_ok_iff.1 hg
    exact ⟨e₀, he₀⟩
  | _ => cases hpart

/-- A phrase at the front of a text is read in full if nothing carries it on. -/
theorem Phrase.reads (h : Phrase env.scope part ts t) (ht : t.build = .ok e)
    (hs : Spelled s (ts ++ us)) (hend : part.EndsBefore us) :
    ∃ r, part.Reads env s e r ∧ Spelled r us := by
  -- By induction on the phrase, for every text that goes on after it: a part is followed by the next
  -- one, which it must not run into.
  induction h generalizing s e us with
  | @expr ts vs t u h hmore ih ihmore =>
    obtain ⟨f, hf⟩ := hmore.exists_left ht
    rw [List.append_assoc] at hs
    obtain ⟨s', hterm, hs'⟩ := ih hf hs (hmore.endsBefore_more hend)
    obtain ⟨r, ⟨f', hf', hread⟩, hr⟩ := ihmore ht hs' hend
    cases hf.symm.trans hf'
    exact ⟨r, reads_expr_iff.2 ⟨f, s', hterm, hread⟩, hr⟩
  | @term ts vs t u h hmore ih ihmore =>
    obtain ⟨f, hf⟩ := hmore.exists_left ht
    rw [List.append_assoc] at hs
    obtain ⟨s', hunary, hs'⟩ := ih hf hs (hmore.endsBefore_more hend)
    obtain ⟨r, ⟨f', hf', hread⟩, hr⟩ := ihmore ht hs' hend
    cases hf.symm.trans hf'
    exact ⟨r, reads_term_iff.2 ⟨f, s', hunary, hread⟩, hr⟩
  | @done tier t =>
    refine ⟨s, ⟨e, ht, (readsMore_done_iff ?_).2 ⟨rfl, rfl⟩⟩, hs⟩
    rintro op rfl
    exact hs.not_next (hend op.mark op.mark_mem_continuations)
  | @more tier ts vs t u v op hop h hmore ih ihmore =>
    subst hop
    obtain ⟨g, hg⟩ := hmore.exists_left ht
    obtain ⟨e₀, he₀, hg'⟩ := bind_eq_ok_iff.1 hg
    obtain ⟨f, hf, hbuild⟩ := bind_eq_ok_iff.1 hg'
    rw [List.cons_append, List.append_assoc] at hs
    obtain ⟨s', hmark, hs'⟩ := spelled_cons_iff.1 hs
    obtain ⟨s'', hoperand, hs''⟩ := ih hf hs' (hmore.endsBefore_more hend)
    obtain ⟨r, ⟨g', hg', hread⟩, hr⟩ := ihmore ht hs'' hend
    cases hg.symm.trans hg'
    exact ⟨r, ⟨e₀, he₀, (readsMore_operator_iff hmark).2 ⟨f, s'', g, hoperand, hbuild, hread⟩⟩, hr⟩
  | @negative ts t h ih =>
    obtain ⟨f, hf, hbuild⟩ := bind_eq_ok_iff.1 ht
    obtain ⟨s', hminus, hs'⟩ := spelled_cons_iff.1 hs
    obtain ⟨r, hread, hr⟩ := ih hf hs' hend
    exact ⟨r, (reads_unary_minus_iff hminus).2 ⟨f, hread, hbuild⟩, hr⟩
  | @positive ts t h ih =>
    obtain ⟨r, hread, hr⟩ := ih ht hs hend
    obtain ⟨a, as, rfl, ha⟩ := h.head_power
    have hno := hs.not_next (m := .minus) (by simpa using ha)
    exact ⟨r, (reads_unary_power_iff hno).2 hread, hr⟩
  | @raised ts vs t u h hexp ih ihexp =>
    obtain ⟨f, hf, hg⟩ := bind_eq_ok_iff.1 ht
    obtain ⟨g, hg, hbuild⟩ := bind_eq_ok_iff.1 hg
    rw [List.append_assoc] at hs
    obtain ⟨s', hbase, hs'⟩ := ih hf hs (Part.endsBefore_mark (by decide))
    obtain ⟨s'', hhat, hs''⟩ := spelled_cons_iff.1 hs'
    obtain ⟨r, hread, hr⟩ := ihexp hg hs'' hend
    exact ⟨r, reads_power_iff.2 ⟨f, s', hbase, .inl ⟨s'', g, hhat, hread, hbuild⟩⟩, hr⟩
  | @plain ts t h ih =>
    obtain ⟨r, hread, hr⟩ := ih ht hs (hend.mono (by decide))
    have hno := hr.not_next (hend .hat (by decide))
    exact ⟨r, reads_power_iff.2 ⟨e, r, hread, .inr ⟨hno, rfl, rfl⟩⟩, hr⟩
  | @number x =>
    cases ht
    obtain ⟨r, hx, hr⟩ := spelled_cons_iff.1 hs
    exact ⟨r, reads_primary_iff.2 (.inr (.inl ⟨x, hx, rfl⟩)), hr⟩
  | @group ts t h ih =>
    rw [List.cons_append, List.append_assoc] at hs
    obtain ⟨s', hopen, hs'⟩ := spelled_cons_iff.1 hs
    obtain ⟨s'', hread, hs''⟩ := ih ht hs' Part.endsBefore_closing
    obtain ⟨r, hclose, hr⟩ := spelled_cons_iff.1 hs''
    exact ⟨r, reads_primary_iff.2 (.inl ⟨s', s'', hopen, hread, hclose⟩), hr⟩
  | @operation w k ts t hw h ih =>
    obtain ⟨f, hf, hbuild⟩ := bind_eq_ok_iff.1 ht
    simp only [List.cons_append, List.append_assoc] at hs
    obtain ⟨s₁, hname, hs⟩ := spelled_cons_iff.1 hs
    obtain ⟨s₂, hopen, hs⟩ := spelled_cons_iff.1 hs
    obtain ⟨s₃, hread, hs⟩ := ih hf hs Part.endsBefore_closing
    obtain ⟨r, hclose, hr⟩ := spelled_cons_iff.1 hs
    refine ⟨r, reads_primary_iff.2 (.inr (.inr ⟨w, s₁, hname, ?_⟩)), hr⟩
    rw [reads_call_iff, hw]
    exact ⟨f, reads_single_iff.2 ⟨s₂, s₃, hopen, hread, hclose⟩, hbuild⟩
  | @labelling w k ts t vs labels hw h hlabels ih =>
    obtain ⟨f, hf, hbuild⟩ := bind_eq_ok_iff.1 ht
    simp only [List.cons_append, List.append_assoc] at hs
    obtain ⟨s₁, hname, hs⟩ := spelled_cons_iff.1 hs
    obtain ⟨s₂, hopen, hs⟩ := spelled_cons_iff.1 hs
    obtain ⟨s₃, hread, hs⟩ := ih hf hs Part.endsBefore_comma
    obtain ⟨s₄, hcomma, hs⟩ := spelled_cons_iff.1 hs
    obtain ⟨r, hlist, hr⟩ := hlabels.reads env hs
    refine ⟨r, reads_primary_iff.2 (.inr (.inr ⟨w, s₁, hname, ?_⟩)), hr⟩
    rw [reads_call_iff, hw]
    exact ⟨f, labels, withLabels_eq_ok_iff.2 ⟨s₂, s₃, hopen, hread, .inl ⟨s₄, hcomma, hlist⟩⟩, hbuild⟩
  | @bind w ts t hw h ih =>
    obtain ⟨f, hf, hbuild⟩ := bind_eq_ok_iff.1 ht
    simp only [List.cons_append, List.append_assoc] at hs
    obtain ⟨s₁, hname, hs⟩ := spelled_cons_iff.1 hs
    obtain ⟨s₂, hopen, hs⟩ := spelled_cons_iff.1 hs
    obtain ⟨s₃, hread, hs⟩ := ih hf hs Part.endsBefore_closing
    obtain ⟨r, hclose, hr⟩ := spelled_cons_iff.1 hs
    refine ⟨r, reads_primary_iff.2 (.inr (.inr ⟨w, s₁, hname, ?_⟩)), hr⟩
    rw [reads_call_iff, hw]
    exact ⟨f, [], withLabels_eq_ok_iff.2 ⟨s₂, s₃, hopen, hread, .inr ⟨hclose, rfl⟩⟩, hbuild⟩
  | @symbol w k vs labels hw hlabels =>
    simp only [List.cons_append, List.append_assoc] at hs
    obtain ⟨s₁, hname, hs⟩ := spelled_cons_iff.1 hs
    obtain ⟨s₂, hopen, hs⟩ := spelled_cons_iff.1 hs
    obtain ⟨r, hlist, hr⟩ := hlabels.reads env hs
    refine ⟨r, reads_primary_iff.2 (.inr (.inr ⟨w, s₁, hname, ?_⟩)), hr⟩
    rw [reads_call_iff, hw]
    exact .inl ⟨s₂, labels, hopen, hlist, ht⟩
  | @reference w a hw horder =>
    obtain ⟨s₁, hname, hs⟩ := spelled_cons_iff.1 hs
    refine ⟨s₁, reads_primary_iff.2 (.inr (.inr ⟨w, s₁, hname, ?_⟩)), hs⟩
    rw [reads_call_iff, hw]
    exact .inr ⟨a, rfl, horder, hs.not_next (hend .opening (by decide)), rfl, ht⟩

/-! ### Whole texts -/

/-- A source is parsed exactly if an expression is read and nothing is left behind it. -/
lemma parse_eq_ok_iff {src : Bytes} : parse scope src = .ok e ↔
    ∃ r, Part.expr.Reads ⟨scope, src.length⟩ src e r ∧ Spelled r [] := by
  simp only [spelled_nil_iff]
  rw [parse]
  constructor
  · intro h
    obtain ⟨⟨f, r, hr⟩, hread, h⟩ := bind_eq_ok_iff.1 h
    dsimp only at h
    split at h
    · rename_i hnil
      cases h
      exact ⟨r, ⟨hr, hread⟩, hnil⟩
    · cases h
  · rintro ⟨r, ⟨hr, hread⟩, hnil⟩
    refine bind_eq_ok_iff.2 ⟨_, hread, ?_⟩
    dsimp only
    rw [hnil]
    rfl

/-- Reading succeeds exactly on the sentences of the grammar whose tree can be built, with the
expression that is built from the tree. A text has at most one tree. -/
theorem parse_recognizes (scope : Scope) (src : Bytes) :
    { t | Sentence scope src t }.Subsingleton ∧
      ∀ n, parse scope src = .ok n ↔ ∃ t, Sentence scope src t ∧ t.build = .ok n := by
  refine ⟨fun t ht t' ht' => Sentence.unique ht ht', fun n => ?_⟩
  rw [parse_eq_ok_iff]
  constructor
  · rintro ⟨r, hread, hr⟩
    obtain ⟨ts, t, hphrase, hbuild, hspelled⟩ := hread.explained
    have hsrc := hspelled [] hr
    rw [List.append_nil] at hsrc
    exact ⟨t, ⟨ts, hsrc, hphrase⟩, hbuild⟩
  · rintro ⟨t, ⟨ts, hsrc, hphrase⟩, hbuild⟩
    rw [← List.append_nil ts] at hsrc
    have hphrase' : Phrase (Env.mk scope src.length).scope .expr ts t := hphrase
    exact hphrase'.reads hbuild hsrc nofun

end Indicial.Expr.Parser
