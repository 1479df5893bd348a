import Indicial.Error
import Mathlib.Data.List.Forall2

/-!
# Computations that may fail

How a computation in `Except` came to its result: a sequence succeeds exactly when each of its parts
does, a loop over a list when every round does. Proofs take computations apart by these lemmas and
never unfold the monad.
-/

namespace Indicial

section

variable {ε α β : Type}

/-- Returning succeeds. -/
@[simp] lemma pure_eq_ok (a : α) : (pure a : Except ε α) = .ok a := rfl

/-- Throwing fails. -/
@[simp] lemma throw_eq_error (e : ε) : (throw e : Except ε α) = .error e := rfl

/-- What follows a success is run on its result. -/
@[simp] lemma ok_bind (a : α) (f : α → Except ε β) : (Except.ok a >>= f) = f a := rfl

/-- What follows a failure is not run. -/
@[simp] lemma error_bind (e : ε) (f : α → Except ε β) : (Except.error e >>= f) = .error e := rfl

/-- Mapping a success maps its result. -/
@[simp] lemma map_ok (f : α → β) (a : α) : (f <$> Except.ok a : Except ε β) = .ok (f a) := rfl

/-- A sequence succeeds when its first part does and the rest does on its result. -/
lemma bind_eq_ok_iff {x : Except ε α} {f : α → Except ε β} {b : β} :
    (x >>= f) = .ok b ↔ ∃ a, x = .ok a ∧ f a = .ok b := by
  cases x with
  | error e => simp
  | ok a => simp

/-- A sequence fails at its first step, or at its second after a result of the first. -/
lemma bind_eq_error_iff {x : Except ε α} {f : α → Except ε β} {e : ε} :
    (x >>= f) = .error e ↔ x = .error e ∨ ∃ a, x = .ok a ∧ f a = .error e := by
  cases x with
  | error e' => simp
  | ok a => simp

/-- A mapped outcome succeeds exactly if the outcome does. -/
lemma map_eq_ok_iff {x : Except ε α} {f : α → β} {b : β} :
    (f <$> x) = .ok b ↔ ∃ a, x = .ok a ∧ f a = b := by
  cases x with
  | error e => simp [Functor.map, Except.map]
  | ok a => simp [Functor.map, Except.map]

/-- An optional outcome succeeds exactly if the outcome does. -/
lemma some_map_eq_ok_iff {x : Except ε α} {a : α} :
    (some <$> x) = .ok (some a) ↔ x = .ok a := by
  rw [map_eq_ok_iff]
  simp

/-- A computation behind a check succeeds when the check finds nothing wrong and it does itself. -/
lemma guard_eq_ok {c : Prop} [Decidable c] {e : ε} {k : Except ε α} {a : α}
    (h : (if c then (throw e >>= fun (_ : PUnit) => k) else k) = .ok a) : ¬c ∧ k = .ok a := by
  split at h
  · cases h
  · exact ⟨by assumption, h⟩

/-- A guarded outcome succeeds if the guard does not hold and the outcome succeeds. -/
lemma guard_eq_ok_iff {c : Prop} [Decidable c] {e : ε} {k : Except ε α} {a : α} :
    (if c then (throw e >>= fun (_ : PUnit) => k) else k) = .ok a ↔ ¬c ∧ k = .ok a := by
  refine ⟨guard_eq_ok, ?_⟩
  rintro ⟨hc, hk⟩
  rw [if_neg hc, hk]

/-- A list of computations succeeds when each of them does. -/
lemma mapM_eq_ok_iff {f : α → Except ε β} {l : List α} {bs : List β} :
    l.mapM f = .ok bs ↔ List.Forall₂ (fun a b => f a = .ok b) l bs := by
  induction l generalizing bs with
  | nil => cases bs <;> simp
  | cons a l ih =>
    rw [List.mapM_cons, bind_eq_ok_iff]
    constructor
    · rintro ⟨b, hb, h⟩
      obtain ⟨bs', hbs', h⟩ := bind_eq_ok_iff.1 h
      cases h
      exact List.Forall₂.cons hb (ih.1 hbs')
    · intro h
      cases h with
      | cons hb hbs => exact ⟨_, hb, bind_eq_ok_iff.2 ⟨_, ih.2 hbs, rfl⟩⟩

section Pairs

variable {R : α → β → Prop} {l : List α} {m : List β}

/-- Entries on the right have a partner on the left. -/
lemma exists_of_mem_right (h : List.Forall₂ R l m) {b : β} (hb : b ∈ m) : ∃ a ∈ l, R a b := by
  induction h with
  | nil => cases hb
  | cons hhead _ ih =>
    rcases List.mem_cons.1 hb with rfl | hb
    · exact ⟨_, List.mem_cons_self, hhead⟩
    · obtain ⟨a, ha, hab⟩ := ih hb
      exact ⟨a, List.mem_cons_of_mem _ ha, hab⟩

/-- Entries on the left have a partner on the right. -/
lemma exists_of_mem_left (h : List.Forall₂ R l m) {a : α} (ha : a ∈ l) : ∃ b ∈ m, R a b :=
  exists_of_mem_right h.flip ha

/-- An entry on the left has its partner at its place. -/
lemma exists_of_getElem_left (h : List.Forall₂ R l m) {i : Nat} {a : α} (ha : l[i]? = some a) :
    ∃ b, m[i]? = some b ∧ R a b := by
  induction h generalizing i with
  | nil => cases ha
  | @cons x y l m hhead _ ih =>
    cases i with
    | zero =>
      cases ha
      exact ⟨y, rfl, hhead⟩
    | succ i => exact ih ha

end Pairs

/-- Two lists of computations, the second on the results of the first. -/
lemma forall₂_trans {γ : Type} {R : α → β → Prop} {Q : β → γ → Prop} {l : List α} {m : List β}
    {n : List γ} (h : List.Forall₂ R l m) (h' : List.Forall₂ Q m n) :
    List.Forall₂ (fun a c => ∃ b, R a b ∧ Q b c) l n := by
  induction h generalizing n with
  | nil =>
    cases h'
    exact .nil
  | cons hr _ ih =>
    cases h' with
    | cons hq h' => exact .cons ⟨_, hr, hq⟩ (ih h')

/-- A list of computations all of which succeed. -/
lemma mapM_eq_ok_of_forall {f : α → Except ε β} {g : α → β} {l : List α}
    (h : ∀ a ∈ l, f a = .ok (g a)) : l.mapM f = .ok (l.map g) := by
  rw [mapM_eq_ok_iff, List.forall₂_map_right_iff, List.forall₂_same]
  exact h

/-- A function that succeeds on all entries succeeds on the list. -/
lemma exists_mapM_eq_ok {f : α → Except ε β} {l : List α} (h : ∀ a ∈ l, ∃ b, f a = .ok b) :
    ∃ bs, l.mapM f = .ok bs := by
  induction l with
  | nil => exact ⟨[], rfl⟩
  | cons a l ih =>
    rw [List.forall_mem_cons] at h
    obtain ⟨⟨b, hb⟩, hl⟩ := h
    obtain ⟨bs, hbs⟩ := ih hl
    rw [mapM_eq_ok_iff] at hbs
    exact ⟨b :: bs, mapM_eq_ok_iff.2 (.cons hb hbs)⟩

/-- A check of a list succeeds exactly if it does on all entries. -/
lemma forM_eq_ok_iff {f : β → Except ε Unit} {l : List β} :
    l.forM f = .ok () ↔ ∀ b ∈ l, f b = .ok () := by
  induction l with
  | nil => exact ⟨fun _ => nofun, fun _ => rfl⟩
  | cons b l ih =>
    rw [List.forall_mem_cons, ← ih]
    exact bind_eq_ok_iff.trans ⟨fun ⟨_, hb, hl⟩ => ⟨hb, hl⟩, fun ⟨hb, hl⟩ => ⟨_, hb, hl⟩⟩

/-- A loop whose rounds keep a property and succeed. -/
lemma foldlM_ok_of_forall {f : β → α → Except ε β} {P : List α → β → Prop} {l : List α} {b : β}
    (h₀ : P [] b)
    (h : ∀ pre a post b, l = pre ++ a :: post → P pre b → ∃ b', f b a = .ok b' ∧ P (pre ++ [a]) b') :
    ∃ b', l.foldlM f b = .ok b' ∧ P l b' := by
  suffices key : ∀ pre post b, l = pre ++ post → P pre b →
      ∃ b', post.foldlM f b = .ok b' ∧ P l b' by
    exact key [] l b rfl h₀
  intro pre post
  induction post generalizing pre with
  | nil =>
    intro b hl hb
    rw [List.append_nil] at hl
    subst hl
    exact ⟨b, rfl, hb⟩
  | cons a post ih =>
    intro b hl hb
    obtain ⟨b₁, hstep, hb₁⟩ := h pre a post b hl hb
    obtain ⟨b', hrun, hb'⟩ := ih (pre ++ [a]) b₁ (by simpa using hl) hb₁
    exact ⟨b', by rw [List.foldlM_cons, hstep, ok_bind, hrun], hb'⟩

/-- What every successful round of a loop keeps, the loop keeps. -/
lemma foldlM_preserves {f : β → α → Except ε β} {P : β → Prop} {l : List α} {b b' : β}
    (h : ∀ a ∈ l, ∀ b b', P b → f b a = .ok b' → P b') (hb : P b) (hrun : l.foldlM f b = .ok b') :
    P b' := by
  induction l generalizing b with
  | nil =>
    cases hrun
    exact hb
  | cons a l ih =>
    rw [List.foldlM_cons] at hrun
    obtain ⟨b₁, hstep, hrun⟩ := bind_eq_ok_iff.1 hrun
    rw [List.forall_mem_cons] at h
    exact ih h.2 (h.1 b b₁ hb hstep) hrun

/-- What each round of a loop over the numbers below `n` brings one step further. -/
lemma foldlM_range_preserves {f : β → Nat → Except ε β} {P : Nat → β → Prop} {n : Nat} {b b' : β}
    (h₀ : P 0 b) (h : ∀ k < n, ∀ b b', P k b → f b k = .ok b' → P (k + 1) b')
    (hrun : (List.range n).foldlM f b = .ok b') : P n b' := by
  induction n generalizing b' with
  | zero =>
    cases hrun
    exact h₀
  | succ n ih =>
    rw [List.range_succ, List.foldlM_append] at hrun
    obtain ⟨b₁, hbefore, hstep⟩ := bind_eq_ok_iff.1 hrun
    rw [List.foldlM_cons] at hstep
    obtain ⟨b₂, hstep, hend⟩ := bind_eq_ok_iff.1 hstep
    cases hend
    exact h n (Nat.lt_succ_self n) b₁ _ (ih (fun k hk => h k (Nat.lt_succ_of_lt hk)) hbefore) hstep

/-- Every round of a loop that succeeds has succeeded. -/
lemma exists_round_of_foldlM {f : β → α → Except ε β} {l : List α} {b b' : β}
    (hrun : l.foldlM f b = .ok b') {a : α} (ha : a ∈ l) : ∃ c c', f c a = .ok c' := by
  induction l generalizing b with
  | nil => cases ha
  | cons x l ih =>
    rw [List.foldlM_cons] at hrun
    obtain ⟨b₁, hstep, hrun⟩ := bind_eq_ok_iff.1 hrun
    rcases List.mem_cons.1 ha with rfl | ha
    · exact ⟨b, b₁, hstep⟩
    · exact ih hrun ha

/-- A loop over parts is the loop over whole rounds, if the parts of each round in sequence are the
round. States of the loop over parts are views of states of the other loop. -/
lemma foldlM_flatMap_eq {γ σ : Type} (view : σ → β) (P : σ → Prop) {parts : α → List γ}
    {f : β → γ → Except ε β} {g : σ → α → Except ε σ} {l : List α} {x : σ} (hx : P x)
    (hkeeps : ∀ a x x', P x → g x a = .ok x' → P x')
    (h : ∀ a x, P x → (parts a).foldlM f (view x) = view <$> g x a) :
    (l.flatMap parts).foldlM f (view x) = view <$> l.foldlM g x := by
  induction l generalizing x with
  | nil => rfl
  | cons a l ih =>
    rw [List.flatMap_cons, List.foldlM_append, List.foldlM_cons, h a x hx]
    cases hstep : g x a with
    | error e => rfl
    | ok x' => exact ih (hkeeps a x x' hx hstep)

/-- A loop over the entries of a list and their positions. -/
lemma foldlM_zipIdx_ok {l : List α} {f : β → α × Nat → Except ε β} {P : Nat → β → Prop} {b : β}
    (h₀ : P 0 b)
    (h : ∀ k a, l[k]? = some a → ∀ b, P k b → ∃ b', f b (a, k) = .ok b' ∧ P (k + 1) b') :
    ∃ b', l.zipIdx.foldlM f b = .ok b' ∧ P l.length b' := by
  have hloop : ∃ b', l.zipIdx.foldlM f b = .ok b' ∧ P l.zipIdx.length b' := by
    apply foldlM_ok_of_forall (P := fun pre b => P pre.length b) h₀
    rintro pre ⟨a, k⟩ post b hsplit hb
    have hentry : l.zipIdx[pre.length]? = some (a, k) := by
      rw [hsplit]
      simp
    obtain ⟨ha, rfl⟩ : l[pre.length]? = some a ∧ pre.length = k := by
      simpa [List.getElem?_zipIdx] using hentry
    obtain ⟨b', hrun, hb'⟩ := h pre.length a ha b hb
    exact ⟨b', hrun, by simpa using hb'⟩
  rwa [List.length_zipIdx] at hloop

/-- A computation succeeds with something that passes a test. -/
lemma toOption_any_iff {x : Except ε α} {test : α → Bool} :
    x.toOption.any test = true ↔ ∃ a, x = .ok a ∧ test a = true := by
  cases x with
  | error e => simp [Except.toOption]
  | ok a => simp [Except.toOption]

/-- Whatever a computation succeeds with passes a test. -/
lemma toOption_all_iff {x : Except ε α} {test : α → Bool} :
    x.toOption.all test = true ↔ ∀ a, x = .ok a → test a = true := by
  cases x with
  | error e => simp [Except.toOption]
  | ok a => simp [Except.toOption]

/-! ### Faults and contexts -/

/-- A success is a success among errors of all kinds. -/
@[simp] lemma liftM_ok (a : α) : (liftM (.ok a : Except Fault α) : Except Error α) = .ok a := rfl

/-- Only a success is lifted to a success. -/
lemma liftM_eq_ok_iff {x : Except Fault α} {a : α} :
    (liftM x : Except Error α) = .ok a ↔ x = .ok a := by
  cases x with
  | error f => exact ⟨nofun, nofun⟩
  | ok b => simp

/-- A context changes errors only. -/
lemma within_eq_ok_iff {context : Context} {x : Except Error α} {a : α} :
    Except.within context x = .ok a ↔ x = .ok a := by
  cases x with
  | error f => exact ⟨nofun, nofun⟩
  | ok b => rfl

end

end Indicial
