import Indicial.Plan.Run
import Indicial.Proofs.Layout
import Indicial.Proofs.Outcome
import Mathlib.Data.List.Induction

/-!
# What a frame shows

`Frame.Shows f W S v`: the first `S` slots of a frame hold the values `v slot lane` in its `W` lanes.
Through it the checked accesses of a run become functions: reading a slot gives its value, writing
one changes `v` at one place, and a loop that writes a window ends in `overwrite`.

A contraction clears its window and then adds one term for each assignment. `gather` is the value
that a slot ends with: the terms that belong to it, added from the left.
-/

namespace Indicial

variable {α : Type}

/-- The terms whose position is `q`, added from the left to zero. -/
def gather (A : Arith α) (n : Nat) (own : Nat → Nat) (term : Nat → α) (q : Nat) : α :=
  (List.range n).foldl (fun x k => if own k = q then A.add x (term k) else x) A.zero

/-- The last term is added to the one sum that it belongs to. -/
lemma gather_succ (A : Arith α) (n : Nat) (own : Nat → Nat) (term : Nat → α) (q : Nat) :
    gather A (n + 1) own term q
      = if own n = q then A.add (gather A n own term q) (term n) else gather A n own term q := by
  simp [gather, List.range_succ]

/-- A gathered sum depends on places and terms only. -/
lemma gather_congr {A : Arith α} {n : Nat} {own own' : Nat → Nat} {term term' : Nat → α} {q : Nat}
    (hown : ∀ k < n, own k = own' k) (hterm : ∀ k < n, term k = term' k) :
    gather A n own term q = gather A n own' term' q := by
  induction n with
  | zero => rfl
  | succ n ih =>
    rw [gather_succ, gather_succ, hown n (by omega), hterm n (by omega),
      ih (fun k hk => hown k (by omega)) fun k hk => hterm k (by omega)]

/-- The slots with the window of `n` slots from `o` on replaced. -/
def overwrite (v : Nat → Nat → α) (o n : Nat) (g : Nat → Nat → α) : Nat → Nat → α :=
  fun s => if o ≤ s ∧ s < o + n then g (s - o) else v s

section Overwrite

variable (v g : Nat → Nat → α) {o n s q : Nat}

/-- Overwriting nothing changes nothing. -/
lemma overwrite_zero (o : Nat) : overwrite v o 0 g = v := by
  funext s
  exact if_neg (by omega)

/-- Slots below a window keep their contents. -/
lemma overwrite_of_lt (h : s < o) : overwrite v o n g s = v s := if_neg (by omega)

/-- The slots of a window get new contents. -/
lemma overwrite_window (h : q < n) : overwrite v o n g (o + q) = g q := by
  rw [overwrite, if_pos (by omega), Nat.add_sub_cancel_left]

/-- A window is overwritten slot by slot. -/
lemma update_overwrite (o n : Nat) :
    Function.update (overwrite v o n g) (o + n) (g n) = overwrite v o (n + 1) g := by
  funext s
  by_cases hs : s = o + n
  · subst hs
    rw [Function.update_self, overwrite_window _ _ (Nat.lt_succ_self n)]
  · rw [Function.update_of_ne hs, overwrite, overwrite]
    by_cases hin : o ≤ s ∧ s < o + n
    · rw [if_pos hin, if_pos (by omega)]
    · rw [if_neg hin, if_neg (by omega)]

/-- Changing one slot of a replaced window. -/
lemma update_overwrite_inside {o n : Nat} (h : q < n) (x : Nat → α) :
    Function.update (overwrite v o n g) (o + q) x = overwrite v o n (Function.update g q x) := by
  funext s
  by_cases hs : s = o + q
  · subst hs
    rw [Function.update_self, overwrite_window _ _ h, Function.update_self]
  · rw [Function.update_of_ne hs, overwrite, overwrite]
    by_cases hin : o ≤ s ∧ s < o + n
    · rw [if_pos hin, if_pos hin, Function.update_of_ne (by omega)]
    · rw [if_neg hin, if_neg hin]

end Overwrite

namespace Frame

/-- The first `S` slots hold these values in all `W` lanes. -/
structure Shows (f : Frame α) (W S : Nat) (v : Nat → Nat → α) : Prop where
  width : f.width = W
  fits : S * W ≤ f.stack.size
  value : ∀ s < S, ∀ l < W, f.stack[s * W + l]? = some (v s l)

section Access

variable {f : Frame α} {W S : Nat} {v u : Nat → Nat → α} {slot : Int} {s l : Nat}

/-- What a frame shows is all that counts of its contents. -/
lemma Shows.congr (h : f.Shows W S v) (hv : ∀ s < S, ∀ l < W, v s l = u s l) : f.Shows W S u :=
  ⟨h.width, h.fits, fun s hs l hl => by rw [h.value s hs l hl, hv s hs l hl]⟩

/-- Slot and lane have a place in the storage. -/
lemma place_lt (hs : s < S) (hl : l < W) : s * W + l < S * W :=
  calc s * W + l < s * W + W := by omega
    _ = (s + 1) * W := by ring
    _ ≤ S * W := Nat.mul_le_mul_right W hs

/-- A frame that is large enough shows whatever it holds. -/
lemma exists_shows {f : Frame α} {W S : Nat} (hwidth : f.width = W) (hfits : S * W ≤ f.stack.size)
    (x : α) : ∃ v, f.Shows W S v := by
  refine ⟨fun s l => f.stack.getD (s * W + l) x, hwidth, hfits, fun s hs l hl => ?_⟩
  have hlt := Nat.lt_of_lt_of_le (place_lt hs hl) hfits
  simp [Array.getD, hlt]

/-- A slot that a frame shows can be read. -/
lemma Shows.read (h : f.Shows W S v) (hslot : slot = s) (hs : s < S) (hl : l < W) :
    f.read slot l = .ok (v s l) := by
  have hplace : slot * (f.width : Int) + l = ((s * W + l : Nat) : Int) := by
    rw [hslot, h.width]
    push_cast
    rfl
  rw [Frame.read]
  simp only [hplace]
  rw [if_neg (by omega), Int.toNat_natCast, h.value s hs l hl]

/-- Two lanes of slots lie at different places. -/
lemma place_inj {s' l' : Nat} (hl : l < W) (hl' : l' < W) (h : s * W + l = s' * W + l') :
    s = s' ∧ l = l' := by
  have hW : 0 < W := by omega
  have hs := congrArg (· / W) h
  simp only [Nat.add_comm (_ * W), Nat.add_mul_div_right _ _ hW, Nat.div_eq_of_lt hl,
    Nat.div_eq_of_lt hl', Nat.zero_add] at hs
  subst hs
  exact ⟨rfl, by omega⟩

/-- A slot that a frame shows can be written, and shows what was written. -/
lemma Shows.write (h : f.Shows W S v) (hslot : slot = s) (hs : s < S) (hl : l < W) (x : α) :
    ∃ f', f.write slot l x = .ok f' ∧
      f'.Shows W S (Function.update v s (Function.update (v s) l x)) := by
  have hplace : slot * (f.width : Int) + l = ((s * W + l : Nat) : Int) := by
    rw [hslot, h.width]
    push_cast
    rfl
  have hlt : s * W + l < f.stack.size := Nat.lt_of_lt_of_le (place_lt hs hl) h.fits
  rw [Frame.write]
  simp only [hplace]
  rw [if_neg (by simp; omega), Int.toNat_natCast]
  refine ⟨_, rfl, h.width, by simpa using h.fits, fun s' hs' l' hl' => ?_⟩
  rw [Array.getElem?_setIfInBounds]
  by_cases hsame : s * W + l = s' * W + l'
  · obtain ⟨rfl, rfl⟩ := place_inj hl hl' hsame
    simp [hlt]
  · rw [if_neg hsame, h.value s' hs' l' hl']
    by_cases hss : s' = s
    · subst hss
      have hll : l' ≠ l := fun hll => hsame (by rw [hll])
      rw [Function.update_self, Function.update_of_ne hll]
    · rw [Function.update_of_ne hss]

/-- A window within the slots is found to be one. -/
lemma Shows.window (h : f.Shows W S v) {o n : Nat} (hS : o + n ≤ S) (hsmall : S < 2 ^ 63) :
    f.window (Int64.ofNat o) (Int64.ofNat n) = .ok () := by
  have hlast : (o + n) * W ≤ f.stack.size :=
    Nat.le_trans (Nat.mul_le_mul_right W hS) h.fits
  have hfirst : o * W ≤ (o + n) * W := Nat.mul_le_mul_right W (by omega)
  rw [Frame.window, Int64.toInt_ofNat_of_lt (by omega), Int64.toInt_ofNat_of_lt (by omega), h.width]
  rw [← Int.natCast_add, ← Int.natCast_mul, ← Int.natCast_mul]
  rw [if_pos]
  simp only [Bool.and_eq_true, decide_eq_true_eq]
  omega

end Access

/-! ### Loops -/

/-- A loop whose rounds keep a property and succeed. -/
lemma repeatM_ok {n : Nat} {body : Nat → Frame α → Except Fault (Frame α)} {P : Nat → Frame α → Prop}
    {f : Frame α} (h₀ : P 0 f)
    (h : ∀ k < n, ∀ g, P k g → ∃ g', body k g = .ok g' ∧ P (k + 1) g') :
    ∃ f', repeatM n body f = .ok f' ∧ P n f' := by
  induction n with
  | zero => exact ⟨f, rfl, h₀⟩
  | succ n ih =>
    obtain ⟨f₁, hrun, hf₁⟩ := ih fun k hk => h k (by omega)
    obtain ⟨f₂, hbody, hf₂⟩ := h n (by omega) f₁ hf₁
    refine ⟨f₂, ?_, hf₂⟩
    rw [repeatM] at hrun ⊢
    rw [List.range_succ, List.foldlM_append, hrun, ok_bind]
    simp only [List.foldlM_cons, List.foldlM_nil, hbody, ok_bind, pure_eq_ok]

section Loops

variable {A : Arith α} {f : Frame α} {W S o n : Nat} {v : Nat → Nat → α}

/-- A body that writes one slot in each lane, from what that lane shows. -/
lemma Shows.eachLane {body : Nat → Frame α → Except Fault (Frame α)} {s : Nat} {slot : Int}
    (h : f.Shows W S v) (hslot : slot = s) (hs : s < S) (x : Nat → α)
    (hbody : ∀ l < W, ∀ g u, g.Shows W S u → (∀ s, u s l = v s l) →
      body l g = g.write slot l (x l)) :
    ∃ f', f.eachLane body = .ok f' ∧ f'.Shows W S (Function.update v s x) := by
  have hloop : ∃ f', repeatM f.width body f = .ok f' ∧
      f'.Shows W S (Function.update v s fun l => if l < f.width then x l else v s l) := by
    -- After `k` lanes the slot shows the new value in these and the old one in the others.
    apply repeatM_ok
      (P := fun k g => g.Shows W S (Function.update v s fun l => if l < k then x l else v s l))
    · refine h.congr fun s' _ l _ => ?_
      by_cases hss : s' = s
      · subst hss
        simp
      · rw [Function.update_of_ne hss]
    · intro k hk g hg
      rw [h.width] at hk
      have hsame : ∀ s', (Function.update v s fun l => if l < k then x l else v s l) s' k = v s' k := by
        intro s'
        by_cases hss : s' = s
        · subst hss
          simp
        · rw [Function.update_of_ne hss]
      rw [hbody k hk g _ hg hsame]
      obtain ⟨g', hwrite, hg'⟩ := hg.write hslot hs hk (x k)
      refine ⟨g', hwrite, hg'.congr fun s' _ l _ => ?_⟩
      by_cases hss : s' = s
      · subst hss
        simp only [Function.update_self]
        by_cases hlk : l = k
        · subst hlk
          simp
        · rw [Function.update_of_ne hlk]
          by_cases hlt : l < k
          · rw [if_pos hlt, if_pos (by omega)]
          · rw [if_neg hlt, if_neg (by omega)]
      · rw [Function.update_of_ne hss, Function.update_of_ne hss, Function.update_of_ne hss]
  obtain ⟨f', hrun, hf'⟩ := hloop
  refine ⟨f', hrun, hf'.congr fun s' _ l hl => ?_⟩
  by_cases hss : s' = s
  · subst hss
    simp [h.width, hl]
  · rw [Function.update_of_ne hss, Function.update_of_ne hss]

/-- A loop that writes the slots of a window one after the other. -/
lemma Shows.repeatM_window {body : Nat → Frame α → Except Fault (Frame α)} (h : f.Shows W S v)
    (g : Nat → Nat → α)
    (hbody : ∀ k < n, ∀ f', f'.Shows W S (overwrite v o k g) → ∃ f'', body k f' = .ok f'' ∧
      f''.Shows W S (Function.update (overwrite v o k g) (o + k) (g k))) :
    ∃ f', f.repeatM n body = .ok f' ∧ f'.Shows W S (overwrite v o n g) := by
  apply repeatM_ok (P := fun k f' => f'.Shows W S (overwrite v o k g))
  · rw [overwrite_zero]
    exact h
  · intro k hk f' hf'
    obtain ⟨f'', hrun, hf''⟩ := hbody k hk f' hf'
    rw [update_overwrite] at hf''
    exact ⟨f'', hrun, hf''⟩

/-- Clearing a window leaves zeros in it. -/
lemma Shows.clear (h : f.Shows W S v) (hS : o + n ≤ S) (hsmall : S < 2 ^ 63) :
    ∃ f', f.clear A (Int64.ofNat o) (Int64.ofNat n) = .ok f' ∧
      f'.Shows W S (overwrite v o n fun _ _ => A.zero) := by
  rw [Frame.clear, toNat_toInt_ofNat (by omega), Int64.toInt_ofNat_of_lt (by omega)]
  apply h.repeatM_window
  intro k hk f' hf'
  exact hf'.eachLane (s := o + k) (by push_cast; rfl) (by omega) _ fun l _ g u _ _ => rfl

/-- Accumulating into a slot writes the sum. -/
lemma Shows.accumulate (h : f.Shows W S v) {slot : Int} {s l : Nat} (hslot : slot = s) (hs : s < S)
    (hl : l < W) (x : α) : f.accumulate A slot l x = f.write slot l (A.add (v s l) x) := by
  rw [Frame.accumulate, h.read hslot hs hl, ok_bind]

/-- One round of a contraction: its term is added in every lane to the slot it belongs to. -/
lemma Shows.gather_round {body : Nat → Frame α → Except Fault (Frame α)} {own : Nat → Nat}
    {term : Nat → Nat → α} {k : Nat} {slot : Int} (hS : o + n ≤ S) (hown : own k < n)
    (h : f.Shows W S (overwrite v o n fun q l => gather A k own (term · l) q))
    (hslot : slot = (o + own k : Nat))
    (hbody : ∀ l < W, ∀ g u, g.Shows W S u → (∀ s < o, u s l = v s l) →
      body l g = g.accumulate A slot l (term k l)) :
    ∃ f', f.eachLane body = .ok f' ∧
      f'.Shows W S (overwrite v o n fun q l => gather A (k + 1) own (term · l) q) := by
  have hround : ∀ l < W, ∀ g u, g.Shows W S u →
      (∀ s, u s l = overwrite v o n (fun q l => gather A k own (term · l) q) s l) →
      body l g = g.write slot l (A.add (gather A k own (term · l) (own k)) (term k l)) := by
    intro l hl g u hg hu
    rw [hbody l hl g u hg fun s hs => by rw [hu s, overwrite_of_lt _ _ hs],
      hg.accumulate hslot (by omega) hl, hu, overwrite_window _ _ hown]
  obtain ⟨f', hrun, hf'⟩ := h.eachLane hslot (by omega) _ hround
  refine ⟨f', hrun, ?_⟩
  rw [update_overwrite_inside _ _ hown] at hf'
  have hnext : (Function.update (fun q l => gather A k own (term · l) q) (own k)
        fun l => A.add (gather A k own (term · l) (own k)) (term k l))
      = fun q l => gather A (k + 1) own (term · l) q := by
    funext q l
    rw [gather_succ]
    by_cases hq : q = own k
    · subst hq
      rw [Function.update_self, if_pos rfl]
    · rw [Function.update_of_ne hq, if_neg fun heq => hq heq.symm]
  rwa [hnext] at hf'

end Loops

end Frame

end Indicial
