import Indicial.Engine.Basic
import Indicial.Proofs.Layout
import Indicial.Proofs.Outcome

/-!
# What is written to a sink

Each output of a point has an address in a sink, and different outputs have different addresses as
long as the sink has room for their points. `Sink.Written F cells s s'` says that a sequence of writes
put the value `F point slot` at the address of every cell and left everything else as it was. Writes
compose (`Written.trans`), and so does any loop of them (`foldlM_written`).
-/

namespace Indicial.Sink

variable {α : Type}

/-- Where an output of a point stands. -/
def address : Sink α → Nat → Int64 → Nat × Nat
  | flat _ width origin, slot, p =>
    (0, (p.toInt - origin.toInt).toNat * width.toInt.toNat + slot)
  | columns _, slot, p => (slot, p.toInt.toNat)

/-- What stands at an address. -/
def read : Sink α → Nat × Nat → Option α
  | flat out _ _, a => if a.1 = 0 then out[a.2]? else none
  | columns out, a => (out[a.1]?).bind fun column => column[a.2]?

/-- Whether there is room for all `W` outputs of a point. -/
def Holds : Sink α → Nat → Int64 → Prop
  | flat out width origin, W, p =>
    width = Int64.ofNat W ∧ origin.toInt ≤ p.toInt ∧
      ((p.toInt - origin.toInt).toNat + 1) * W ≤ out.size ∧ out.size < 2 ^ 63
  | columns out, W, p =>
    0 ≤ p.toInt ∧ ∀ slot < W, ∃ column, out[slot]? = some column ∧ p.toInt < column.size

section Put

variable {s s' s'' : Sink α} {W slot : Nat} {p p' : Int64}

/-- Different outputs of points that a sink has room for stand at different addresses. -/
lemma address_inj {slot' : Nat} (hp : s.Holds W p) (hp' : s.Holds W p') (hslot : slot < W)
    (hslot' : slot' < W) (h : s.address slot p = s.address slot' p') : slot = slot' ∧ p = p' := by
  cases s with
  | flat out width origin =>
    obtain ⟨rfl, hle, hroom, hsize⟩ := hp
    obtain ⟨-, hle', -, -⟩ := hp'
    have hrow : W ≤ ((p.toInt - origin.toInt).toNat + 1) * W :=
      Nat.le_mul_of_pos_left W (Nat.succ_pos _)
    have hW : W < 2 ^ 63 := by omega
    simp only [address, Prod.mk.injEq, true_and, toNat_toInt_ofNat hW] at h
    have hquot := congrArg (· / W) h
    simp only [Nat.add_comm (_ * W), Nat.add_mul_div_right _ _ (show 0 < W by omega),
      Nat.div_eq_of_lt hslot, Nat.div_eq_of_lt hslot', Nat.zero_add] at hquot
    refine ⟨by rw [hquot] at h; omega, Int64.toInt_inj.1 ?_⟩
    omega
  | columns out =>
    simp only [address, Prod.mk.injEq] at h
    have := hp.1
    have := hp'.1
    exact ⟨h.1, Int64.toInt_inj.1 (by omega)⟩

/-- The lengths of a sink's vectors, and whether it is flat. -/
def shape : Sink α → Bool × List Nat
  | flat out _ _ => (true, [out.size])
  | columns out => (false, out.toList.map Array.size)

/-- The same addresses and the same room. -/
structure SameLayout (s s' : Sink α) : Prop where
  address_eq : s'.address = s.address
  holds_eq : s'.Holds = s.Holds
  shape_eq : s'.shape = s.shape

/-- A sink has the layout of itself. -/
lemma SameLayout.refl (s : Sink α) : s.SameLayout s := ⟨rfl, rfl, rfl⟩

/-- Layouts are kept from sink to sink. -/
lemma SameLayout.trans (h : s.SameLayout s') (h' : s'.SameLayout s'') : s.SameLayout s'' :=
  ⟨h'.address_eq.trans h.address_eq, h'.holds_eq.trans h.holds_eq, h'.shape_eq.trans h.shape_eq⟩

/-- The place of an output in a flat sink is found without wrapping around. -/
lemma toInt_place {origin : Int64} {t : Int32} {size : Nat} (hle : origin.toInt ≤ p.toInt)
    (hroom : ((p.toInt - origin.toInt).toNat + 1) * W ≤ size) (hsize : size < 2 ^ 63)
    (hslot : slot < W) (ht : t.toInt = slot) :
    ((p - origin) * Int64.ofNat W + t.toInt64).toInt
        = ((p.toInt - origin.toInt).toNat * W + slot : Nat) ∧
      (p.toInt - origin.toInt).toNat * W + slot < size := by
  have hplace : ((p.toInt - origin.toInt).toNat + 1) * W
      = (p.toInt - origin.toInt).toNat * W + W := by ring
  have hW : W < 2 ^ 63 := by omega
  have hrow : (p.toInt - origin.toInt).toNat ≤ (p.toInt - origin.toInt).toNat * W :=
    Nat.le_mul_of_pos_right _ (by omega)
  have hdiff : (p - origin).toInt = p.toInt - origin.toInt := toInt_sub_of_lt (by omega) (by omega)
  have hmul : ((p - origin) * Int64.ofNat W).toInt
      = ((p.toInt - origin.toInt).toNat * W : Nat) := by
    have hcast : (p - origin).toInt * (Int64.ofNat W).toInt
        = ((p.toInt - origin.toInt).toNat * W : Nat) := by
      rw [hdiff, Int64.toInt_ofNat_of_lt hW]
      push_cast
      rw [Int.toNat_of_nonneg (by omega)]
    rw [toInt_mul_of_lt (by omega) (by omega), hcast]
  have hsum : ((p - origin) * Int64.ofNat W).toInt + t.toInt64.toInt
      = ((p.toInt - origin.toInt).toNat * W + slot : Nat) := by
    rw [hmul, Int32.toInt_toInt64, ht]
    push_cast
    rfl
  refine ⟨?_, by omega⟩
  rw [toInt_add_of_lt (by omega) (by omega), hsum]

/-- Putting into a flat sink changes the cell of slot and point. -/
lemma put_flat_eq_ok {out : Array α} {width origin : Int64} {t : Int32}
    (hp : (flat out width origin).Holds W p) (hslot : slot < W) (ht : t.toInt = slot) (x : α) :
    ∃ s', (flat out width origin).put t p x = .ok s' ∧ (flat out width origin).SameLayout s' ∧
      ∀ a, s'.read a = if (flat out width origin).address slot p = a then some x
        else (flat out width origin).read a := by
  obtain ⟨rfl, hle, hroom, hsize⟩ := hp
  obtain ⟨hplace, hlt⟩ := toInt_place hle hroom hsize hslot ht
  have hW : W < 2 ^ 63 := by
    have hrow : W ≤ ((p.toInt - origin.toInt).toNat + 1) * W :=
      Nat.le_mul_of_pos_left W (Nat.succ_pos _)
    omega
  have hin : ¬((decide ((((p.toInt - origin.toInt).toNat * W + slot : Nat) : Int) < 0) ||
      decide ((out.size : Int) ≤ ((p.toInt - origin.toInt).toNat * W + slot : Nat))) = true) := by
    simp only [Bool.or_eq_true, decide_eq_true_eq, not_or, not_lt, not_le]
    omega
  rw [put]
  simp only [hplace]
  rw [if_neg hin, Int.toNat_natCast]
  refine ⟨_, rfl, ⟨rfl, ?_, ?_⟩, fun a => ?_⟩
  · funext W' p'
    simp only [Holds, Array.size_setIfInBounds]
  · simp only [shape, Array.size_setIfInBounds]
  · obtain ⟨i, j⟩ := a
    simp only [read, address, toNat_toInt_ofNat hW, Array.getElem?_setIfInBounds, Prod.mk.injEq]
    by_cases hi : i = 0
    · by_cases hj : (p.toInt - origin.toInt).toNat * W + slot = j
      · simp [hi, hj, hj ▸ hlt]
      · simp [hi, hj]
    · simp [hi, Ne.symm hi]

/-- Setting an element of one column leaves the lengths of all columns as they were. -/
lemma sizes_modify (out : Array (Array α)) (slot row : Nat) (x : α) :
    (out.modify slot fun c => c.setIfInBounds row x).toList.map Array.size
      = out.toList.map Array.size := by
  apply List.ext_getElem?
  intro i
  rw [List.getElem?_map, List.getElem?_map, Array.getElem?_toList, Array.getElem?_toList,
    Array.getElem?_modify]
  split
  · simp [Option.map_map, Function.comp_def]
  · rfl

/-- Putting into columns changes the row of the point in the column of the slot. -/
lemma put_columns_eq_ok {out : Array (Array α)} {t : Int32} (hp : (columns out).Holds W p)
    (hslot : slot < W) (ht : t.toInt = slot) (x : α) :
    ∃ s', (columns out).put t p x = .ok s' ∧ (columns out).SameLayout s' ∧
      ∀ a, s'.read a = if (columns out).address slot p = a then some x else (columns out).read a := by
  obtain ⟨hpos, hroom⟩ := hp
  obtain ⟨column, hcolumn, hlt⟩ := hroom slot hslot
  have hneg : ¬((decide (t < 0) || decide (p < 0)) = true) := by
    simp only [Bool.or_eq_true, decide_eq_true_eq, Int32.lt_iff_toInt_lt, Int64.lt_iff_toInt_lt,
      Int32.toInt_zero, Int64.toInt_zero]
    omega
  rw [put]
  simp only
  rw [if_neg hneg]
  simp only [ht, Int.toNat_natCast, hcolumn]
  have hrow : p.toInt.toNat < column.size := by omega
  rw [if_neg (show ¬column.size ≤ p.toInt.toNat by omega)]
  refine ⟨_, rfl, ⟨rfl, ?_, ?_⟩, fun a => ?_⟩
  · funext W' p'
    simp only [Holds, Array.getElem?_modify, eq_iff_iff]
    refine and_congr_right fun _ => forall₂_congr fun slot' _ => ?_
    by_cases hss : slot = slot'
    · subst hss
      simp [hcolumn]
    · simp [hss]
  · simp only [shape, sizes_modify]
  · obtain ⟨i, j⟩ := a
    simp only [read, address, Array.getElem?_modify, Prod.mk.injEq]
    generalize p.toInt.toNat = row at hrow
    by_cases hi : slot = i
    · subst hi
      by_cases hj : row = j
      · subst hj
        simp [hcolumn, hrow]
      · simp [hcolumn, hj]
    · simp [hi]

/-- Putting out a number changes the element at its address, and nothing else. -/
lemma put_eq_ok {t : Int32} (hp : s.Holds W p) (hslot : slot < W) (ht : t.toInt = slot) (x : α) :
    ∃ s', s.put t p x = .ok s' ∧ s.SameLayout s' ∧
      ∀ a, s'.read a = if s.address slot p = a then some x else s.read a := by
  cases s with
  | flat => exact put_flat_eq_ok hp hslot ht x
  | columns => exact put_columns_eq_ok hp hslot ht x

end Put

/-! ### Sequences of writes -/

/-- All cells hold their values, each of them in its own place, and nothing else has changed. -/
structure Written (W : Nat) (F : Int64 → Nat → α) (cells : List (Nat × Int64)) (s s' : Sink α) :
    Prop where
  layout : s.SameLayout s'
  valid : ∀ c ∈ cells, c.1 < W ∧ s.Holds W c.2
  hit : ∀ c ∈ cells, s'.read (s.address c.1 c.2) = some (F c.2 c.1)
  miss : ∀ a, (∀ c ∈ cells, s.address c.1 c.2 ≠ a) → s'.read a = s.read a

section Written

variable {s s' s'' : Sink α} {W : Nat} {F : Int64 → Nat → α} {cells more : List (Nat × Int64)}

/-- Nothing has been written before the beginning. -/
lemma Written.refl (s : Sink α) : Written W F [] s s :=
  ⟨.refl s, nofun, nofun, fun _ _ => rfl⟩

/-- What is written first and then is written altogether. -/
lemma Written.trans (h : Written W F cells s s') (h' : Written W F more s' s'') :
    Written W F (cells ++ more) s s'' := by
  have haddress := h.layout.address_eq
  have hholds := h.layout.holds_eq
  have hvalid : ∀ c ∈ more, c.1 < W ∧ s.Holds W c.2 := by
    intro c hc
    rw [← hholds]
    exact h'.valid c hc
  refine ⟨h.layout.trans h'.layout, ?_, ?_, ?_⟩
  · intro c hc
    rcases List.mem_append.1 hc with hc | hc
    · exact h.valid c hc
    · exact hvalid c hc
  · intro c hc
    rcases List.mem_append.1 hc with hc | hc
    · by_cases hagain : ∃ d ∈ more, s.address d.1 d.2 = s.address c.1 c.2
      · -- The cell is written again: then it is the same cell, and it gets the same value.
        obtain ⟨d, hd, heq⟩ := hagain
        obtain ⟨h₁, h₂⟩ := address_inj (hvalid d hd).2 (h.valid c hc).2 (hvalid d hd).1
          (h.valid c hc).1 heq
        have hhit := h'.hit d hd
        rwa [haddress, h₁, h₂] at hhit
      · have hmiss : ∀ d ∈ more, s'.address d.1 d.2 ≠ s.address c.1 c.2 := by
          intro d hd heq
          rw [haddress] at heq
          exact hagain ⟨d, hd, heq⟩
        rw [h'.miss _ hmiss, h.hit c hc]
    · have hhit := h'.hit c hc
      rwa [haddress] at hhit
  · intro a ha
    rw [h'.miss a fun d hd => by rw [haddress]; exact ha d (by simp [hd]),
      h.miss a fun c hc => ha c (by simp [hc])]

/-- Putting a number writes its cell. -/
lemma Written.of_put {t : Int32} {slot : Nat} {p : Int64} (hp : s.Holds W p) (hslot : slot < W)
    (ht : t.toInt = slot) : ∃ s', s.put t p (F p slot) = .ok s' ∧ Written W F [(slot, p)] s s' := by
  obtain ⟨s', hput, hlayout, hread⟩ := put_eq_ok hp hslot ht (F p slot)
  refine ⟨s', hput, hlayout, ?_, ?_, ?_⟩
  · intro c hc
    obtain rfl : c = (slot, p) := by simpa using hc
    exact ⟨hslot, hp⟩
  · intro c hc
    obtain rfl : c = (slot, p) := by simpa using hc
    rw [hread, if_pos rfl]
  · intro a ha
    rw [hread, if_neg (ha (slot, p) (by simp))]

/-- A loop of writes: each round writes its own cells and keeps an invariant of the state. -/
lemma foldlM_written {β τ : Type} (view : τ → Sink α) {I : τ → Prop} {cells : β → List (Nat × Int64)}
    {body : τ → β → Except Fault τ} {l : List β} {x : τ} (hx : I x)
    (hbody : ∀ b ∈ l, ∀ y, I y → (view x).SameLayout (view y) →
      ∃ y', body y b = .ok y' ∧ I y' ∧ Written W F (cells b) (view y) (view y')) :
    ∃ x', l.foldlM body x = .ok x' ∧ I x' ∧ Written W F (l.flatMap cells) (view x) (view x') := by
  induction l generalizing x with
  | nil => exact ⟨x, rfl, hx, .refl _⟩
  | cons b l ih =>
    obtain ⟨y, hstep, hy, hwritten⟩ := hbody b (by simp) x hx (.refl _)
    obtain ⟨x', hrun, hx', hrest⟩ := ih hy fun b hb z hz hlayout => hbody b (by simp [hb]) z hz
      (hwritten.layout.trans hlayout)
    refine ⟨x', ?_, hx', ?_⟩
    · rw [List.foldlM_cons, hstep, ok_bind, hrun]
    · rw [List.flatMap_cons]
      exact hwritten.trans hrest

end Written

end Indicial.Sink
