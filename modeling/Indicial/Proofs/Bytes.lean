import Indicial.Text.Bytes
import Mathlib.Data.List.Basic

/-!
# Reading bytes back

What a text is made of can be read off it where each part ends in a way that the next one does not
carry on: a run of bytes of one sort ends before the first byte of another (`append_run_inj`). So a
number is read off its decimal digits, a list of numbers off its digits and commas, and bytes off their
hexadecimal digits.
-/

namespace Indicial.Bytes

/-! ### Runs -/

/-- Two texts that begin with runs of one sort of bytes, and go on with another, have the same runs. -/
lemma append_run_inj {p : UInt8 → Bool} {w w' r r' : Bytes} (hw : ∀ b ∈ w, p b = true)
    (hw' : ∀ b ∈ w', p b = true) (hr : ∀ b ∈ r.head?, p b = false)
    (hr' : ∀ b ∈ r'.head?, p b = false) (h : w ++ r = w' ++ r') : w = w' ∧ r = r' := by
  have hrun {w r : Bytes} (hw : ∀ b ∈ w, p b = true) (hr : ∀ b ∈ r.head?, p b = false) :
      (w ++ r).takeWhile p = w := by
    rw [List.takeWhile_append_of_pos hw]
    cases r with
    | nil => rw [List.takeWhile_nil, List.append_nil]
    | cons b r =>
      have hb := hr b rfl
      rw [List.takeWhile_cons_of_neg (by simp [hb]), List.append_nil]
  obtain rfl : w = w' := by rw [← hrun hw hr, h, hrun hw' hr']
  exact ⟨rfl, List.append_cancel_left h⟩

/-! ### Hexadecimal digits -/

/-- The sixteen digits are read back. -/
lemma ofHexDigit?_hexDigit : ∀ n < 16, ofHexDigit? (hexDigit n) = some n.toUInt8 := by decide

/-- Bytes are read back from their hexadecimal digits. -/
lemma ofHex?_toHex (bs : Bytes) : ofHex? (toHex bs) = some bs := by
  induction bs with
  | nil => rfl
  | cons b bs ih =>
    have hlt := b.toNat_lt
    have hbyte : 16 * (b.toNat / 16).toUInt8 + (b.toNat % 16).toUInt8 = b := by
      apply UInt8.toNat_inj.1
      rw [UInt8.toNat_add, UInt8.toNat_mul]
      simp only [Nat.toUInt8_eq, UInt8.toNat_ofNat', UInt8.reduceToNat]
      omega
    have htail : bs.flatMap (fun b => [hexDigit (b.toNat / 16), hexDigit (b.toNat % 16)]) = toHex bs :=
      rfl
    rw [toHex, List.flatMap_cons, htail]
    simp only [List.cons_append, List.nil_append, ofHex?, ih,
      ofHexDigit?_hexDigit (b.toNat / 16) (by omega), ofHexDigit?_hexDigit (b.toNat % 16) (by omega)]
    exact congrArg (fun x => some (x :: bs)) hbyte

/-- Hexadecimal text tells byte strings apart. -/
lemma toHex_injective {bs bs' : Bytes} (h : toHex bs = toHex bs') : bs = bs' := by
  have hread := ofHex?_toHex bs
  rw [h, ofHex?_toHex] at hread
  exact (Option.some.inj hread).symm

/-! ### Decimal digits -/

/-- Decimal digits are the characters from 48 to 57, and bytes hold them. -/
lemma toNat_ofChar_of_mem_toDigits {n : Nat} {c : Char} (hc : c ∈ Nat.toDigits 10 n) :
    48 ≤ c.toNat ∧ c.toNat ≤ 57 ∧ (ofChar c).toNat = c.toNat := by
  have h := Nat.isDigit_of_mem_toDigits (by decide) (by decide) hc
  simp only [Char.isDigit, Bool.and_eq_true, decide_eq_true_eq, UInt32.le_iff_toNat_le] at h
  have hlow : 48 ≤ c.toNat := h.1
  have hhigh : c.toNat ≤ 57 := h.2
  refine ⟨hlow, hhigh, ?_⟩
  rw [ofChar, Nat.toUInt8_eq, UInt8.toNat_ofNat']
  omega

/-- Numbers are written with digits only. -/
lemma isDigit_of_mem_ofNat {n : Nat} {b : UInt8} (h : b ∈ ofNat n) : isDigit b = true := by
  obtain ⟨c, hc, rfl⟩ := List.mem_map.1 h
  obtain ⟨hlow, hhigh, hbyte⟩ := toNat_ofChar_of_mem_toDigits hc
  simp only [isDigit, Bool.and_eq_true, decide_eq_true_eq, UInt8.le_iff_toNat_le, hbyte]
  exact ⟨hlow, hhigh⟩

/-- A number is read back from its decimal digits. -/
lemma ofDigitChars_ofNat (n : Nat) :
    Nat.ofDigitChars 10 ((ofNat n).map fun b => Char.ofNat b.toNat) 0 = n := by
  have hchars : (ofNat n).map (fun b => Char.ofNat b.toNat) = Nat.toDigits 10 n := by
    rw [ofNat, List.map_map]
    refine (List.map_congr_left fun c hc => ?_).trans (List.map_id _)
    rw [Function.comp_apply, (toNat_ofChar_of_mem_toDigits hc).2.2, Char.ofNat_toNat, id]
  rw [hchars]
  exact Nat.ofDigitChars_ten_toDigits

/-- Different numbers are written differently. -/
lemma ofNat_injective {m n : Nat} (h : ofNat m = ofNat n) : m = n := by
  rw [← ofDigitChars_ofNat m, h, ofDigitChars_ofNat]

/-- Where a run of digits at the end begins is seen from the end. -/
lemma append_digits_inj {bs bs' ds ds' : Bytes} {b : UInt8} (hb : isDigit b = false)
    (hds : ∀ d ∈ ds, isDigit d = true) (hds' : ∀ d ∈ ds', isDigit d = true)
    (h : bs ++ b :: ds = bs' ++ b :: ds') : bs = bs' ∧ ds = ds' := by
  have hreverse := congrArg List.reverse h
  simp only [List.reverse_append, List.reverse_cons, List.append_assoc, List.singleton_append]
    at hreverse
  obtain ⟨hrun, hrest⟩ := append_run_inj (fun d hd => hds d (List.mem_reverse.1 hd))
    (fun d hd => hds' d (List.mem_reverse.1 hd)) (by simpa using hb) (by simpa using hb) hreverse
  exact ⟨List.reverse_inj.1 (List.cons.inj hrest).2, List.reverse_inj.1 hrun⟩

/-! ### Lists -/

/-- What holds of the separator and of all parts holds of what is joined. -/
lemma forall_mem_join {p : UInt8 → Prop} {sep : Bytes} {xs : List Bytes} (hsep : ∀ b ∈ sep, p b)
    (hxs : ∀ x ∈ xs, ∀ b ∈ x, p b) : ∀ b ∈ join sep xs, p b := by
  induction xs with
  | nil => simp [join]
  | cons x xs ih =>
    have hrest := ih fun y hy => hxs y (List.mem_cons_of_mem _ hy)
    have hx := hxs x (List.mem_cons_self ..)
    cases xs with
    | nil => exact hx
    | cons y rest =>
      intro b hb
      simp only [join, List.mem_append] at hb
      rcases hb with (hb | hb) | hb
      · exact hx b hb
      · exact hsep b hb
      · exact hrest b hb

/-- With a separator in front, every item has one before it. -/
lemma append_join (sep x : Bytes) (xs : List Bytes) :
    sep ++ join sep (x :: xs) = (x :: xs).flatMap (sep ++ ·) := by
  induction xs generalizing x with
  | nil => simp [join]
  | cons y xs ih =>
    rw [List.flatMap_cons, ← ih y, join]
    simp only [List.append_assoc]

/-- Numbers are read off their digits where each has a comma before it. -/
lemma flatMap_ofNat_injective {ns ns' : List Nat}
    (h : (ns.map ofNat).flatMap ([44] ++ ·) = (ns'.map ofNat).flatMap ([44] ++ ·)) : ns = ns' := by
  have hhead (ns : List Nat) :
      ∀ b ∈ ((ns.map ofNat).flatMap ([44] ++ ·)).head?, isDigit b = false := by
    cases ns with
    | nil => simp
    | cons n ns =>
      intro b hb
      cases hb
      decide
  induction ns generalizing ns' with
  | nil =>
    cases ns' with
    | nil => rfl
    | cons n' ns' => cases h
  | cons n ns ih =>
    cases ns' with
    | nil => cases h
    | cons n' ns' =>
      simp only [List.map_cons, List.flatMap_cons, List.append_assoc] at h
      obtain ⟨hfirst, hrest⟩ := append_run_inj (fun _ => isDigit_of_mem_ofNat)
        (fun _ => isDigit_of_mem_ofNat) (hhead ns) (hhead ns') (List.append_cancel_left h)
      rw [ofNat_injective hfirst, ih hrest]

/-- Numbers are read off their digits with commas between them. -/
lemma join_ofNat_injective {ns ns' : List Nat}
    (h : join [44] (ns.map ofNat) = join [44] (ns'.map ofNat)) : ns = ns' := by
  have hne (n : Nat) (ns : List Nat) : join [44] ((n :: ns).map ofNat) ≠ [] := by
    cases ns <;> simp [join, ofNat, Nat.toDigits_ne_nil]
  cases ns with
  | nil =>
    cases ns' with
    | nil => rfl
    | cons n' ns' => exact absurd h.symm (hne n' ns')
  | cons n ns =>
    cases ns' with
    | nil => exact absurd h (hne n ns)
    | cons n' ns' =>
      apply flatMap_ofNat_injective
      rw [List.map_cons, List.map_cons, ← append_join, ← append_join]
      exact congrArg _ h

end Indicial.Bytes
