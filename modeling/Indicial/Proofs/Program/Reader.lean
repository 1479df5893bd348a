import Indicial.Program.Codec
import Indicial.Proofs.Layout
import Indicial.Proofs.Outcome

/-!
# Reading the parts of a program file

For each part of the format, reading accepts exactly what writing produces: a reader gives `x` and
leaves `rest` exactly when the input is what is written for `x` followed by `rest`, and `x` fits the
fields of the format. What a part has to satisfy to fit is said once, in a predicate `Fits` beside its
lemma. The counts that readers compare with the bytes that are left refuse nothing that was written.
-/

namespace Indicial

/-! ### Bytes of a number -/

namespace Bytes

/-- A number is written in as many bytes as are asked for. -/
@[simp] lemma length_littleEndian (width n : Nat) : (littleEndian width n).length = width := by
  induction width generalizing n with
  | zero => rfl
  | succ width ih => simp [littleEndian, ih]

/-- Bytes hold a number below the power of 256. -/
lemma ofLittleEndian_lt (bs : Bytes) : ofLittleEndian bs < 256 ^ bs.length := by
  induction bs with
  | nil => simp [ofLittleEndian]
  | cons b bs ih =>
    have hb := b.toNat_lt
    rw [ofLittleEndian, List.length_cons, Nat.pow_succ]
    omega

/-- Bytes are written for the number that they hold. -/
lemma littleEndian_ofLittleEndian (bs : Bytes) : littleEndian bs.length (ofLittleEndian bs) = bs := by
  induction bs with
  | nil => rfl
  | cons b bs ih =>
    have hb := b.toNat_lt
    have hdiv : (b.toNat + 256 * ofLittleEndian bs) / 256 = ofLittleEndian bs := by omega
    have hlow : (b.toNat + 256 * ofLittleEndian bs).toUInt8 = b := by
      apply UInt8.toNat_inj.1
      simp only [Nat.toUInt8_eq, UInt8.toNat_ofNat']
      omega
    rw [List.length_cons, ofLittleEndian, littleEndian, hdiv, hlow, ih]

/-- A number that fits its bytes is read back. -/
lemma ofLittleEndian_littleEndian {width n : Nat} (h : n < 256 ^ width) :
    ofLittleEndian (littleEndian width n) = n := by
  induction width generalizing n with
  | zero =>
    rw [Nat.pow_zero] at h
    rw [littleEndian, ofLittleEndian]
    omega
  | succ width ih =>
    rw [Nat.pow_succ] at h
    rw [littleEndian, ofLittleEndian, ih (by omega)]
    simp only [Nat.toUInt8_eq, UInt8.toNat_ofNat']
    omega

/-- Items of at least `size` bytes each. -/
lemma mul_le_length_flatMap {β : Type} {store : β → Bytes} {size : Nat} {xs : List β}
    (h : ∀ x ∈ xs, size ≤ (store x).length) : xs.length * size ≤ (xs.flatMap store).length := by
  induction xs with
  | nil => simp
  | cons x xs ih =>
    obtain ⟨hx, hxs⟩ := List.forall_mem_cons.1 h
    have hrest := ih hxs
    rw [List.length_cons, List.flatMap_cons, List.length_append, Nat.succ_mul]
    omega

/-- Bytes hold a number exactly if they are written for it. -/
lemma ofLittleEndian_eq_iff {width n : Nat} {bs : Bytes} (hbs : bs.length = width)
    (hn : n < 256 ^ width) : ofLittleEndian bs = n ↔ bs = littleEndian width n := by
  constructor
  · rintro rfl
    rw [← hbs, littleEndian_ofLittleEndian]
  · rintro rfl
    exact ofLittleEndian_littleEndian hn

end Bytes

namespace Program

namespace Write

/-- A small number is written in one byte. -/
lemma u8_natCast {n : Nat} (h : n < 2 ^ 8) : u8 n = Bytes.littleEndian 1 n := by
  rw [u8, Int.emod_eq_of_lt (by omega) (by omega), Int.toNat_natCast]

/-- A number of 16 bits is written in two bytes. -/
lemma u16_natCast {n : Nat} (h : n < 2 ^ 16) : u16 n = Bytes.littleEndian 2 n := by
  rw [u16, Int.emod_eq_of_lt (by omega) (by omega), Int.toNat_natCast]

/-- A number of 32 bits is written in four bytes. -/
lemma u32_natCast {n : Nat} (h : n < 2 ^ 32) : u32 n = Bytes.littleEndian 4 n := by
  rw [u32, Int.emod_eq_of_lt (by omega) (by omega), Int.toNat_natCast]

end Write

/-! ### Steps of reading -/

namespace Read

variable {β γ : Type} {input rest : Bytes}

/-- A sequence of readers reads part after part. -/
lemma bind_ok_iff {r : Reader β} {f : β → Reader γ} {y : γ} :
    (r >>= f) input = .ok (y, rest) ↔ ∃ x mid, r input = .ok (x, mid) ∧ f x mid = .ok (y, rest) := by
  refine bind_eq_ok_iff.trans ?_
  constructor
  · rintro ⟨⟨x, mid⟩, hx, hy⟩
    exact ⟨x, mid, hx, hy⟩
  · rintro ⟨x, mid, hx, hy⟩
    exact ⟨⟨x, mid⟩, hx, hy⟩

/-- Returning reads nothing. -/
lemma pure_ok_iff {x y : β} : (pure x : Reader β) input = .ok (y, rest) ↔ y = x ∧ input = rest := by
  refine Iff.trans (b := Except.ok (x, input) = Except.ok (y, rest)) Iff.rfl ?_
  rw [Except.ok.injEq, Prod.mk.injEq, eq_comm (a := x)]

/-- Mapping a reader reads the same. -/
lemma map_ok_iff {r : Reader β} {f : β → γ} {y : γ} :
    (f <$> r) input = .ok (y, rest) ↔ ∃ x, r input = .ok (x, rest) ∧ y = f x := by
  rw [map_eq_pure_bind, bind_ok_iff]
  constructor
  · rintro ⟨x, mid, hx, h⟩
    obtain ⟨rfl, rfl⟩ := pure_ok_iff.1 h
    exact ⟨x, hx, rfl⟩
  · rintro ⟨x, hx, rfl⟩
    exact ⟨x, rest, hx, rfl⟩

/-- A step behind a check of the input that is left. -/
lemma guard_ok_iff {c : Prop} [Decidable c] {e : Corruption} {r : Reader β} {x : β} :
    (if c then r else throw e) input = .ok (x, rest) ↔ c ∧ r input = .ok (x, rest) := by
  split
  case isTrue h => simp [h]
  case isFalse h =>
    refine iff_of_false ?_ fun hc => h hc.1
    nofun

/-- A check lets through what does not meet its condition, and reads nothing. -/
lemma check_ok_iff {c : Prop} [Decidable c] {e : Corruption} {r : Reader β} {x : β} :
    (if c then (throw e >>= fun (_ : PUnit) => r) else r) input = .ok (x, rest) ↔
      ¬c ∧ r input = .ok (x, rest) := by
  split
  case isTrue h =>
    refine iff_of_false ?_ fun hc => hc.1 h
    nofun
  case isFalse h => simp [h]

/-- A lifted outcome reads nothing. -/
lemma lift_ok_iff {x : Except Corruption β} {y : β} :
    (liftM x : Reader β) input = .ok (y, rest) ↔ x = .ok y ∧ input = rest := by
  cases x with
  | error e => exact ⟨nofun, nofun⟩
  | ok x =>
    refine Iff.trans (b := Except.ok (x, input) = Except.ok (y, rest)) Iff.rfl ?_
    rw [Except.ok.injEq, Prod.mk.injEq, Except.ok.injEq]

/-- As many bytes are taken as asked for. -/
lemma take_ok_iff {n : Nat} {bs : Bytes} :
    take n input = .ok (bs, rest) ↔ bs.length = n ∧ input = bs ++ rest := by
  rw [take]
  constructor
  · intro h
    split at h
    case isTrue hlength =>
      cases h
      exact ⟨hlength, (List.take_append_drop n input).symm⟩
    case isFalse => cases h
  · rintro ⟨rfl, rfl⟩
    simp

/-- Bytes hold `n` bytes if they are as many. -/
lemma holds_iff {n : Nat} {bs : Bytes} : holds n bs = true ↔ n ≤ bs.length := by
  induction n generalizing bs with
  | zero => simp [holds]
  | succ n ih =>
    cases bs with
    | nil => simp [holds]
    | cons b bs => simp [holds, ih]

/-- A number of `width` bytes. -/
lemma unsigned_ok_iff {width n : Nat} :
    (Bytes.ofLittleEndian <$> take width) input = .ok (n, rest) ↔
      n < 256 ^ width ∧ input = Bytes.littleEndian width n ++ rest := by
  rw [map_ok_iff]
  constructor
  · rintro ⟨bs, hbs, rfl⟩
    obtain ⟨rfl, rfl⟩ := take_ok_iff.1 hbs
    exact ⟨bs.ofLittleEndian_lt, by rw [bs.littleEndian_ofLittleEndian]⟩
  · rintro ⟨hn, rfl⟩
    exact ⟨_, take_ok_iff.2 ⟨by simp, rfl⟩, (Bytes.ofLittleEndian_littleEndian hn).symm⟩

/-- What is read as a byte is written for it. -/
lemma u8_ok_iff {n : Nat} : u8 input = .ok (n, rest) ↔ n < 2 ^ 8 ∧ input = Write.u8 n ++ rest := by
  rw [u8, unsigned_ok_iff]
  exact and_congr_right fun hn => by rw [Write.u8_natCast hn]

/-- What is read as 16 bits is written for them. -/
lemma u16_ok_iff {n : Nat} :
    u16 input = .ok (n, rest) ↔ n < 2 ^ 16 ∧ input = Write.u16 n ++ rest := by
  rw [u16, unsigned_ok_iff]
  exact and_congr_right fun hn => by rw [Write.u16_natCast hn]

/-- What is read as 32 bits is written for them. -/
lemma u32_ok_iff {n : Nat} :
    u32 input = .ok (n, rest) ↔ n < 2 ^ 32 ∧ input = Write.u32 n ++ rest := by
  rw [u32, unsigned_ok_iff]
  exact and_congr_right fun hn => by rw [Write.u32_natCast hn]

/-! ### Runs of equal fields -/

/-- Bytes are grouped into as many groups as asked for. -/
lemma length_group (width : Nat) (n : Nat) (bs : Bytes) : (group width n bs).length = n := by
  induction n generalizing bs with
  | zero => rfl
  | succ n ih => simp [group, ih]

/-- Taking bytes apart in groups and reading each group undoes writing one group for each item. -/
lemma map_group_iff {width n : Nat} {load : Bytes → β} {store : β → Bytes} {bs : Bytes} {xs : List β}
    (hlength : ∀ x, (store x).length = width) (hload : ∀ x, load (store x) = x)
    (hstore : ∀ b, b.length = width → store (load b) = b) :
    bs.length = width * n ∧ xs = (group width n bs).map load ↔
      xs.length = n ∧ bs = xs.flatMap store := by
  induction n generalizing bs xs with
  | zero =>
    rw [Nat.mul_zero, List.length_eq_zero_iff, List.length_eq_zero_iff]
    constructor
    · rintro ⟨rfl, rfl⟩
      exact ⟨rfl, rfl⟩
    · rintro ⟨rfl, rfl⟩
      exact ⟨rfl, rfl⟩
  | succ n ih =>
    constructor
    · rintro ⟨hbs, rfl⟩
      have hfront : (bs.take width).length = width := by
        rw [List.length_take, hbs, Nat.mul_succ]
        omega
      have hback : (bs.drop width).length = width * n := by
        rw [List.length_drop, hbs, Nat.mul_succ]
        omega
      refine ⟨by rw [List.length_map, length_group], ?_⟩
      rw [group, List.map_cons, List.flatMap_cons, hstore _ hfront, ← (ih.1 ⟨hback, rfl⟩).2,
        List.take_append_drop]
    · rintro ⟨hxs, rfl⟩
      cases xs with
      | nil => cases hxs
      | cons x xs =>
        obtain ⟨hrest, hmap⟩ := ih.2 ⟨Nat.succ.inj hxs, rfl⟩
        refine ⟨?_, ?_⟩
        · rw [List.flatMap_cons, List.length_append, hlength, hrest, Nat.mul_succ, Nat.add_comm]
        · rw [List.flatMap_cons, group, List.take_left' (hlength x), List.drop_left' (hlength x),
            List.map_cons, hload, ← hmap]

end Read

namespace Write

/-- A byte is written in one byte. -/
@[simp] lemma length_u8 (n : Int) : (u8 n).length = 1 := by simp [u8]

/-- A number of 16 bits takes two bytes. -/
@[simp] lemma length_u16 (n : Int) : (u16 n).length = 2 := by simp [u16]

/-- A number of 32 bits takes four bytes. -/
@[simp] lemma length_u32 (n : Int) : (u32 n).length = 4 := by simp [u32]

/-- A number of 64 bits takes eight bytes. -/
@[simp] lemma length_u64 (n : UInt64) : (u64 n).length = 8 := by simp [u64]

/-- A word takes four bytes. -/
@[simp] lemma length_word (n : Int32) : (word n).length = 4 := by simp [word]

/-- A word is stored as its residue. -/
lemma ofNat_word (n : Int32) : Int32.ofNat (Bytes.ofLittleEndian (word n)) = n := by
  have hle := n.le_toInt
  have hlt := n.toInt_lt
  rw [word, u32, Bytes.ofLittleEndian_littleEndian (by omega)]
  apply Int32.toInt_inj.1
  rw [Int32.toInt_ofNat', Int.toNat_of_nonneg (by omega)]
  exact (Int.emod_bmod n.toInt 4294967296).trans (Int.bmod_eq_of_le (by omega) (by omega))

/-- The word of four bytes is written as these. -/
lemma word_ofNat {b : Bytes} (hb : b.length = 4) : word (Int32.ofNat b.ofLittleEndian) = b := by
  have hlt := b.ofLittleEndian_lt
  rw [hb] at hlt
  have hresidue : (Int32.ofNat b.ofLittleEndian).toInt % 4294967296 = b.ofLittleEndian := by
    rw [Int32.toInt_ofNat']
    exact (Int.bmod_emod (m := 4294967296)).trans (Int.emod_eq_of_lt (by omega) (by omega))
  rw [word, u32, hresidue, Int.toNat_natCast, ← hb, b.littleEndian_ofLittleEndian]

/-- The pattern of a float is read back. -/
lemma ofNat_pattern (v : Binary64) :
    (⟨(Bytes.ofLittleEndian (u64 v.bits)).toUInt64⟩ : Binary64) = v := by
  rw [u64, Bytes.ofLittleEndian_littleEndian v.bits.toNat_lt]
  simp

/-- The pattern of eight bytes is written as these. -/
lemma pattern_ofNat {b : Bytes} (hb : b.length = 8) : u64 b.ofLittleEndian.toUInt64 = b := by
  have hlt := b.ofLittleEndian_lt
  rw [hb] at hlt
  have hresidue : b.ofLittleEndian.toUInt64.toNat = b.ofLittleEndian := by
    rw [Nat.toUInt64_eq, UInt64.toNat_ofNat']
    exact Nat.mod_eq_of_lt (by omega)
  rw [u64, hresidue, ← hb, b.littleEndian_ofLittleEndian]

end Write

namespace Read

variable {input rest : Bytes}

/-- What is read as words is written for them. -/
lemma words_ok_iff {n : Nat} {ws : List Int32} :
    words n input = .ok (ws, rest) ↔ ws.length = n ∧ input = ws.flatMap Write.word ++ rest := by
  rw [words, bind_ok_iff]
  constructor
  · rintro ⟨bs, mid, htake, h⟩
    obtain ⟨hws, rfl⟩ := pure_ok_iff.1 h
    obtain ⟨hlength, rfl⟩ := take_ok_iff.1 htake
    obtain ⟨hcount, rfl⟩ := (map_group_iff Write.length_word Write.ofNat_word
      fun _ => Write.word_ofNat).1 ⟨hlength, hws⟩
    exact ⟨hcount, rfl⟩
  · rintro ⟨hcount, rfl⟩
    obtain ⟨hlength, hws⟩ := (map_group_iff Write.length_word Write.ofNat_word
      fun _ => Write.word_ofNat).2 ⟨hcount, rfl⟩
    exact ⟨_, _, take_ok_iff.2 ⟨hlength, rfl⟩, pure_ok_iff.2 ⟨hws, rfl⟩⟩

/-- What is read as patterns is written for them. -/
lemma patterns_ok_iff {n : Nat} {vs : List Binary64} :
    patterns n input = .ok (vs, rest) ↔
      vs.length = n ∧ input = vs.flatMap (fun v => Write.u64 v.bits) ++ rest := by
  have hlength (v : Binary64) : (Write.u64 v.bits).length = 8 := Write.length_u64 _
  rw [patterns, bind_ok_iff]
  constructor
  · rintro ⟨bs, mid, htake, h⟩
    obtain ⟨hvs, rfl⟩ := pure_ok_iff.1 h
    obtain ⟨hbs, rfl⟩ := take_ok_iff.1 htake
    obtain ⟨hcount, rfl⟩ :=
      (map_group_iff hlength Write.ofNat_pattern fun _ => Write.pattern_ofNat).1 ⟨hbs, hvs⟩
    exact ⟨hcount, rfl⟩
  · rintro ⟨hcount, rfl⟩
    obtain ⟨hbs, hvs⟩ :=
      (map_group_iff hlength Write.ofNat_pattern fun _ => Write.pattern_ofNat).2 ⟨hcount, rfl⟩
    exact ⟨_, _, take_ok_iff.2 ⟨hbs, rfl⟩, pure_ok_iff.2 ⟨hvs, rfl⟩⟩

/-- A count is read if as many entries can follow. -/
lemma count_ok_iff {size n : Nat} :
    count size input = .ok (n, rest) ↔
      n < 2 ^ 32 ∧ n * size ≤ rest.length ∧ input = Write.u32 n ++ rest := by
  rw [count, bind_ok_iff]
  constructor
  · rintro ⟨m, mid, hm, h⟩
    obtain ⟨left, mid', hget, h⟩ := bind_ok_iff.1 h
    cases hget
    obtain ⟨hholds, h⟩ := guard_ok_iff.1 h
    obtain ⟨rfl, rfl⟩ := pure_ok_iff.1 h
    obtain ⟨hlt, rfl⟩ := u32_ok_iff.1 hm
    exact ⟨hlt, holds_iff.1 hholds, rfl⟩
  · rintro ⟨hlt, hholds, rfl⟩
    refine ⟨n, rest, u32_ok_iff.2 ⟨hlt, rfl⟩, bind_ok_iff.2 ⟨rest, rest, rfl, ?_⟩⟩
    exact guard_ok_iff.2 ⟨holds_iff.2 hholds, rfl⟩

/-- What is read as a text is written for it. -/
lemma text_ok_iff {s : Bytes} :
    text input = .ok (s, rest) ↔ s.length < 2 ^ 16 ∧ input = Write.text s ++ rest := by
  rw [text, bind_ok_iff, Write.text]
  constructor
  · rintro ⟨n, mid, hn, h⟩
    obtain ⟨left, mid', hget, h⟩ := bind_ok_iff.1 h
    cases hget
    obtain ⟨-, h⟩ := guard_ok_iff.1 h
    obtain ⟨rfl, rfl⟩ := take_ok_iff.1 h
    obtain ⟨hlt, rfl⟩ := u16_ok_iff.1 hn
    exact ⟨hlt, by rw [List.append_assoc]⟩
  · rintro ⟨hlt, rfl⟩
    rw [List.append_assoc]
    refine ⟨s.length, s ++ rest, u16_ok_iff.2 ⟨hlt, rfl⟩, bind_ok_iff.2 ⟨s ++ rest, _, rfl, ?_⟩⟩
    exact guard_ok_iff.2 ⟨holds_iff.2 (by simp), take_ok_iff.2 ⟨rfl, rfl⟩⟩

/-- What is read as coordinates is written for them. -/
lemma coord_ok_iff {c : Coord} :
    coord input = .ok (c, rest) ↔ c.size ≤ Coord.capacity ∧ input = Write.coord c ++ rest := by
  rw [coord, bind_ok_iff, Write.coord]
  constructor
  · rintro ⟨n, mid, hn, h⟩
    obtain ⟨hle, h⟩ := check_ok_iff.1 h
    obtain ⟨vs, mid', htake, h⟩ := bind_ok_iff.1 h
    obtain ⟨rfl, rfl⟩ := pure_ok_iff.1 h
    obtain ⟨rfl, rfl⟩ := take_ok_iff.1 htake
    obtain ⟨-, rfl⟩ := u8_ok_iff.1 hn
    exact ⟨Nat.not_lt.1 hle, by rw [List.append_assoc]; rfl⟩
  · rintro ⟨hle, rfl⟩
    rw [List.append_assoc]
    refine ⟨c.size, c.values ++ rest, u8_ok_iff.2 ⟨hle.trans_lt (by decide), rfl⟩, ?_⟩
    exact check_ok_iff.2 ⟨Nat.not_lt.2 hle,
      bind_ok_iff.2 ⟨c.values, rest, take_ok_iff.2 ⟨rfl, rfl⟩, rfl⟩⟩

/-! ### Tables -/

/-- Items one after the other. -/
lemma many_ok_iff {β : Type} {item : Reader β} {Fits : β → Prop} {store : β → Bytes} {n : Nat}
    {xs : List β} (hitem : ∀ {input x rest}, item input = .ok (x, rest) ↔
      Fits x ∧ input = store x ++ rest) :
    many item n input = .ok (xs, rest) ↔
      xs.length = n ∧ (∀ x ∈ xs, Fits x) ∧ input = xs.flatMap store ++ rest := by
  induction n generalizing input xs with
  | zero =>
    refine pure_ok_iff.trans ?_
    rw [List.length_eq_zero_iff]
    refine and_congr_right ?_
    rintro rfl
    simp
  | succ n ih =>
    rw [many, bind_ok_iff]
    constructor
    · rintro ⟨x, mid, hx, h⟩
      obtain ⟨ys, mid', hys, h⟩ := bind_ok_iff.1 h
      obtain ⟨rfl, rfl⟩ := pure_ok_iff.1 h
      obtain ⟨hfits, rfl⟩ := hitem.1 hx
      obtain ⟨rfl, hall, rfl⟩ := ih.1 hys
      exact ⟨rfl, List.forall_mem_cons.2 ⟨hfits, hall⟩, by simp⟩
    · rintro ⟨hlength, hall, rfl⟩
      cases xs with
      | nil => cases hlength
      | cons x xs =>
        obtain ⟨hfits, hall⟩ := List.forall_mem_cons.1 hall
        rw [List.flatMap_cons, List.append_assoc]
        exact ⟨x, _, hitem.2 ⟨hfits, rfl⟩,
          bind_ok_iff.2 ⟨xs, rest, ih.2 ⟨Nat.succ.inj hlength, hall, rfl⟩, rfl⟩⟩

/-- A table of items behind its count. The count is compared with the bytes that are left at `size`
bytes for each item, which no item falls short of. -/
lemma table_ok_iff {β : Type} {item : Reader β} {Fits : β → Prop} {store : β → Bytes} {size : Nat}
    {xs : List β} (hitem : ∀ {input x rest}, item input = .ok (x, rest) ↔
      Fits x ∧ input = store x ++ rest) (hsize : ∀ x, size ≤ (store x).length) :
    (count size >>= many item) input = .ok (xs, rest) ↔
      xs.length < 2 ^ 32 ∧ (∀ x ∈ xs, Fits x) ∧
        input = Write.u32 xs.length ++ xs.flatMap store ++ rest := by
  rw [bind_ok_iff]
  constructor
  · rintro ⟨n, mid, hn, h⟩
    obtain ⟨rfl, hall, rfl⟩ := (many_ok_iff hitem).1 h
    obtain ⟨hlt, -, rfl⟩ := count_ok_iff.1 hn
    exact ⟨hlt, hall, by rw [List.append_assoc]⟩
  · rintro ⟨hlt, hall, rfl⟩
    have hbound : xs.length * size ≤ (xs.flatMap store).length :=
      Bytes.mul_le_length_flatMap fun x _ => hsize x
    rw [List.append_assoc]
    refine ⟨xs.length, xs.flatMap store ++ rest, count_ok_iff.2 ⟨hlt, ?_, rfl⟩,
      (many_ok_iff hitem).2 ⟨rfl, hall, rfl⟩⟩
    rw [List.length_append]
    omega

end Read

end Program

/-! ### References -/

/-- A reference that the format can hold. -/
structure ScalarRef.Fits (r : ScalarRef) : Prop where
  name : r.tensor.name.length < 2 ^ 16
  component : r.component.size = r.tensor.order
  order : r.tensor.order ≤ Index.capacity
  derivs : r.derivs.size ≤ Coord.capacity

namespace Program

/-- The tensors of the references are those that reading makes of their names, one after the other:
the tensor met before under the name, or a new one behind those known. -/
inductive Numbered : List Tensor → List ScalarRef → List Tensor → Prop where
  | nil {known : List Tensor} : Numbered known [] known
  | cons {known known' known'' : List Tensor} {r : ScalarRef} {refs : List ScalarRef} :
    Read.tensor known r.tensor.name r.tensor.order = .ok (r.tensor, known') →
    Numbered known' refs known'' →
    Numbered known (r :: refs) known''

/-- A reference takes at least five bytes. -/
lemma Write.length_reference_ge (r : ScalarRef) : 5 ≤ (Write.reference r).length := by
  simp only [Write.reference, Write.text, Write.coord, List.length_append, Write.length_u16,
    Write.length_u8]
  omega

namespace Read

variable {input rest : Bytes} {constant : Bool} {known known' : List Tensor}

/-- The tensor of a reference has its name and order, whether it is known or new. -/
lemma tensor_eq_ok {name : Bytes} {order : Nat} {t : Tensor}
    (h : tensor known name order = .ok (t, known')) : t.name = name ∧ t.order = order := by
  rw [tensor] at h
  split at h
  case h_1 t' hfind =>
    split at h
    case isTrue horder =>
      cases h
      exact ⟨by simpa using List.find?_some hfind, horder⟩
    case isFalse => cases h
  case h_2 =>
    split at h
    case isTrue => cases h
    case isFalse =>
      cases h
      exact ⟨rfl, rfl⟩

/-- What is read as a reference is written for one that fits, of the tensor known by its name. -/
lemma reference_ok_iff {r : ScalarRef} :
    reference constant known input = .ok ((r, known'), rest) ↔
      (r.Fits ∧ r.constant = constant) ∧
        tensor known r.tensor.name r.tensor.order = .ok (r.tensor, known') ∧
        input = Write.reference r ++ rest := by
  rw [reference, bind_ok_iff, Write.reference]
  constructor
  · rintro ⟨name, i₁, hname, h⟩
    obtain ⟨order, i₂, horder, h⟩ := bind_ok_iff.1 h
    obtain ⟨component, i₃, hcomponent, h⟩ := bind_ok_iff.1 h
    obtain ⟨derivs, i₄, hderivs, h⟩ := bind_ok_iff.1 h
    obtain ⟨⟨t, known₁⟩, i₅, htensor, h⟩ := bind_ok_iff.1 h
    obtain ⟨hsize, h⟩ := check_ok_iff.1 h
    obtain ⟨hr, rfl⟩ := pure_ok_iff.1 h
    cases hr
    obtain ⟨hknown, rfl⟩ := lift_ok_iff.1 htensor
    obtain ⟨rfl, rfl⟩ := tensor_eq_ok hknown
    obtain ⟨hlt, rfl⟩ := text_ok_iff.1 hname
    obtain ⟨-, rfl⟩ := u8_ok_iff.1 horder
    obtain ⟨hle, rfl⟩ := coord_ok_iff.1 hcomponent
    obtain ⟨hle', rfl⟩ := coord_ok_iff.1 hderivs
    have hsize : component.size = t.order := not_not.1 hsize
    exact ⟨⟨⟨hlt, hsize, hsize ▸ hle, hle'⟩, rfl⟩, hknown, by simp only [List.append_assoc]⟩
  · rintro ⟨⟨hfits, rfl⟩, htensor, rfl⟩
    simp only [List.append_assoc]
    refine ⟨_, _, text_ok_iff.2 ⟨hfits.name, rfl⟩, bind_ok_iff.2 ⟨_, _, u8_ok_iff.2 ⟨?_, rfl⟩, ?_⟩⟩
    · exact hfits.order.trans_lt (by decide)
    refine bind_ok_iff.2 ⟨_, _, coord_ok_iff.2 ⟨hfits.component.trans_le hfits.order, rfl⟩, ?_⟩
    refine bind_ok_iff.2 ⟨_, _, coord_ok_iff.2 ⟨hfits.derivs, rfl⟩, ?_⟩
    refine bind_ok_iff.2 ⟨_, _, lift_ok_iff.2 ⟨htensor, rfl⟩, ?_⟩
    exact check_ok_iff.2 ⟨not_not.2 hfits.component, rfl⟩

/-- What is read as several references is written for them, and their tensors are numbered in order. -/
lemma manyReferences_ok_iff {n : Nat} {refs : List ScalarRef} :
    manyReferences constant n known input = .ok ((refs, known'), rest) ↔
      refs.length = n ∧ (∀ r ∈ refs, r.Fits ∧ r.constant = constant) ∧ Numbered known refs known' ∧
        input = refs.flatMap Write.reference ++ rest := by
  induction n generalizing input known refs with
  | zero =>
    rw [manyReferences, pure_ok_iff, List.length_eq_zero_iff, Prod.mk.injEq]
    constructor
    · rintro ⟨⟨rfl, rfl⟩, rfl⟩
      exact ⟨rfl, nofun, .nil, rfl⟩
    · rintro ⟨rfl, -, hnumbered, rfl⟩
      cases hnumbered
      exact ⟨⟨rfl, rfl⟩, rfl⟩
  | succ n ih =>
    rw [manyReferences, bind_ok_iff]
    constructor
    · rintro ⟨⟨r, known₁⟩, mid, hr, h⟩
      obtain ⟨⟨refs', known₂⟩, mid', hrefs, h⟩ := bind_ok_iff.1 h
      obtain ⟨heq, rfl⟩ := pure_ok_iff.1 h
      cases heq
      obtain ⟨hfits, htensor, rfl⟩ := reference_ok_iff.1 hr
      obtain ⟨rfl, hall, hnumbered, rfl⟩ := ih.1 hrefs
      exact ⟨rfl, List.forall_mem_cons.2 ⟨hfits, hall⟩, .cons htensor hnumbered, by simp⟩
    · rintro ⟨hlength, hall, hnumbered, rfl⟩
      cases hnumbered with
      | nil => cases hlength
      | @cons _ known₁ _ r refs htensor hnumbered =>
        obtain ⟨hfits, hall⟩ := List.forall_mem_cons.1 hall
        rw [List.flatMap_cons, List.append_assoc]
        exact ⟨_, _, reference_ok_iff.2 ⟨hfits, htensor, rfl⟩, bind_ok_iff.2
          ⟨_, _, ih.2 ⟨Nat.succ.inj hlength, hall, hnumbered, rfl⟩, rfl⟩⟩

/-- What is read as a table of references is written for it. -/
lemma references_ok_iff {refs : List ScalarRef} :
    references constant known input = .ok ((refs, known'), rest) ↔
      (refs.length < 2 ^ 32 ∧ ∀ r ∈ refs, r.Fits ∧ r.constant = constant) ∧
        Numbered known refs known' ∧ input = Write.references refs ++ rest := by
  rw [references, bind_ok_iff, Write.references]
  constructor
  · rintro ⟨n, mid, hn, h⟩
    obtain ⟨rfl, hall, hnumbered, rfl⟩ := manyReferences_ok_iff.1 h
    obtain ⟨hlt, -, rfl⟩ := count_ok_iff.1 hn
    exact ⟨⟨hlt, hall⟩, hnumbered, by rw [List.append_assoc]⟩
  · rintro ⟨⟨hlt, hall⟩, hnumbered, rfl⟩
    have hbound : refs.length * 5 ≤ (refs.flatMap Write.reference).length :=
      Bytes.mul_le_length_flatMap fun r _ => Write.length_reference_ge r
    rw [List.append_assoc]
    refine ⟨refs.length, _, count_ok_iff.2 ⟨hlt, ?_, rfl⟩,
      manyReferences_ok_iff.2 ⟨rfl, hall, hnumbered, rfl⟩⟩
    rw [List.length_append]
    omega

end Read

end Program

/-! ### Output blocks -/

/-- An output block that the format can hold. -/
structure Output.Fits (o : Output) : Prop where
  name : o.name.length < 2 ^ 16
  order : 0 ≤ o.order.toInt ∧ o.order.toInt < 2 ^ 8
  base : 0 ≤ o.base.toInt ∧ o.base.toInt < 2 ^ 32
  labels : o.labels.length ≤ Index.capacity

namespace Program.Read

variable {input rest : Bytes}

/-- What is read as an output is written for it. -/
lemma output_ok_iff {o : Output} :
    output input = .ok (o, rest) ↔ o.Fits ∧ input = Write.output o ++ rest := by
  rw [output, bind_ok_iff, Write.output]
  constructor
  · rintro ⟨name, i₁, hname, h⟩
    obtain ⟨order, i₂, horder, h⟩ := bind_ok_iff.1 h
    obtain ⟨base, i₃, hbase, h⟩ := bind_ok_iff.1 h
    obtain ⟨labels, i₄, hlabels, h⟩ := bind_ok_iff.1 h
    obtain ⟨hle, h⟩ := check_ok_iff.1 h
    obtain ⟨rfl, rfl⟩ := pure_ok_iff.1 h
    obtain ⟨hname_lt, rfl⟩ := text_ok_iff.1 hname
    obtain ⟨horder_lt, rfl⟩ := u8_ok_iff.1 horder
    obtain ⟨hbase_lt, rfl⟩ := u32_ok_iff.1 hbase
    obtain ⟨-, rfl⟩ := text_ok_iff.1 hlabels
    have horder' : (Int64.ofNat order).toInt = order := Int64.toInt_ofNat_of_lt (by omega)
    have hbase' : (Int64.ofNat base).toInt = base := Int64.toInt_ofNat_of_lt (by omega)
    refine ⟨⟨hname_lt, ?_, ?_, Nat.not_lt.1 hle⟩, ?_⟩
    · rw [horder']
      omega
    · rw [hbase']
      omega
    · rw [horder', hbase']
      simp only [List.append_assoc]
  · obtain ⟨name, order, base, labels⟩ := o
    rintro ⟨⟨hname, horder, hbase, hlabels⟩, rfl⟩
    obtain ⟨order, horder_lt, rfl⟩ := exists_eq_ofNat horder.1
    obtain ⟨base, hbase_lt, rfl⟩ := exists_eq_ofNat hbase.1
    dsimp only at hname horder hbase hlabels ⊢
    rw [Int64.toInt_ofNat_of_lt horder_lt] at horder ⊢
    rw [Int64.toInt_ofNat_of_lt hbase_lt] at hbase ⊢
    simp only [List.append_assoc]
    refine ⟨_, _, text_ok_iff.2 ⟨hname, rfl⟩, ?_⟩
    refine bind_ok_iff.2 ⟨order, _, u8_ok_iff.2 ⟨by omega, rfl⟩, ?_⟩
    refine bind_ok_iff.2 ⟨base, _, u32_ok_iff.2 ⟨by omega, rfl⟩, ?_⟩
    refine bind_ok_iff.2 ⟨labels, _, text_ok_iff.2 ⟨hlabels.trans_lt (by decide), rfl⟩, ?_⟩
    exact check_ok_iff.2 ⟨Nat.not_lt.2 hlabels, rfl⟩

end Program.Read

/-! ### Trees -/

/-- Rows that the format can hold behind the number of rows. -/
structure Rows.Fits {α : Type} (c : Rows α) (rows : Nat) : Prop where
  offsets : c.offsets.size = rows + 1
  data : c.data.size < 2 ^ 32

/-- A tree that the format can hold: every table has one entry or row for each node. -/
structure Tree.Fits {α : Type} (t : Tree α) : Prop where
  dim : 0 ≤ t.dim.toInt ∧ t.dim.toInt < 2 ^ 16
  nodes : t.nodes < 2 ^ 32
  funcs : t.funcs.size = t.nodes
  left : t.left.size = t.nodes
  outer : t.outer.Fits t.nodes
  inner : t.inner.Fits t.nodes
  binding : t.binding.Fits t.nodes
  ids : t.ids.Fits t.nodes
  values : t.values.size = t.nodes
  offsets : t.offsets.size = t.nodes

namespace Program.Read

variable {input rest : Bytes}

/-- Rows behind the count of their data, of at least `size` bytes for each entry. -/
lemma rows_ok_iff {β : Type} {size rows : Nat} {data : Nat → Reader (List β)} {store : List β → Bytes}
    {c : Rows β} (hdata : ∀ {n input xs rest}, data n input = .ok (xs, rest) ↔
      xs.length = n ∧ input = store xs ++ rest)
    (hsize : ∀ xs, xs.length * size ≤ (store xs).length) :
    (do
      let n ← count size
      let offsets ← words (rows + 1)
      let xs ← data n
      return (⟨offsets.toArray, xs.toArray⟩ : Rows β) : Reader (Rows β)) input = .ok (c, rest) ↔
      c.Fits rows ∧ input = Write.u32 c.data.size ++ c.offsets.toList.flatMap Write.word
        ++ store c.data.toList ++ rest := by
  rw [bind_ok_iff]
  constructor
  · rintro ⟨n, i₁, hn, h⟩
    obtain ⟨offsets, i₂, hoffsets, h⟩ := bind_ok_iff.1 h
    obtain ⟨xs, i₃, hxs, h⟩ := bind_ok_iff.1 h
    obtain ⟨rfl, rfl⟩ := pure_ok_iff.1 h
    obtain ⟨rfl, rfl⟩ := hdata.1 hxs
    obtain ⟨hlength, rfl⟩ := words_ok_iff.1 hoffsets
    obtain ⟨hlt, -, rfl⟩ := count_ok_iff.1 hn
    exact ⟨⟨hlength, hlt⟩, by simp only [List.append_assoc, List.size_toArray]⟩
  · rintro ⟨⟨hlength, hlt⟩, rfl⟩
    have hbound := hsize c.data.toList
    rw [Array.length_toList] at hbound
    simp only [List.append_assoc]
    refine ⟨c.data.size, _, count_ok_iff.2 ⟨hlt, ?_, rfl⟩, ?_⟩
    · simp only [List.length_append]
      omega
    refine bind_ok_iff.2 ⟨c.offsets.toList, _, words_ok_iff.2 ⟨hlength, rfl⟩, ?_⟩
    exact bind_ok_iff.2 ⟨c.data.toList, _, hdata.2 ⟨rfl, rfl⟩, rfl⟩

/-- What is read as rows of labels is written for them. -/
lemma labels_ok_iff {rows : Nat} {c : Rows UInt8} :
    labels rows input = .ok (c, rest) ↔ c.Fits rows ∧ input = Write.labels c ++ rest :=
  rows_ok_iff (fun {_ _ _ _} => take_ok_iff) fun _ => (Nat.mul_one _).le

/-- What is read as rows of ids is written for them. -/
lemma ids_ok_iff {rows : Nat} {c : Rows Int32} :
    ids rows input = .ok (c, rest) ↔ c.Fits rows ∧ input = Write.ids c ++ rest :=
  rows_ok_iff words_ok_iff fun _ =>
    Bytes.mul_le_length_flatMap fun w _ => (Write.length_word w).ge

/-- What is read as a tree is written for it. -/
lemma tree_ok_iff {t : Tree Binary64} :
    tree input = .ok (t, rest) ↔ t.Fits ∧ input = Write.tree t ++ rest := by
  rw [tree, bind_ok_iff, Write.tree]
  constructor
  · -- Each field that was read is the next piece of the input.
    rintro ⟨dim, i₁, hdim, h⟩
    obtain ⟨n, i₂, hn, h⟩ := bind_ok_iff.1 h
    obtain ⟨tags, i₃, htags, h⟩ := bind_ok_iff.1 h
    obtain ⟨funcs, i₄, hfuncs, h⟩ := bind_ok_iff.1 h
    obtain ⟨left, i₅, hleft, h⟩ := bind_ok_iff.1 h
    obtain ⟨outer, i₆, houter, h⟩ := bind_ok_iff.1 h
    obtain ⟨inner, i₇, hinner, h⟩ := bind_ok_iff.1 h
    obtain ⟨binding, i₈, hbinding, h⟩ := bind_ok_iff.1 h
    obtain ⟨ids, i₉, hids, h⟩ := bind_ok_iff.1 h
    obtain ⟨values, i₁₀, hvalues, h⟩ := bind_ok_iff.1 h
    obtain ⟨offsets, i₁₁, hoffsets, h⟩ := bind_ok_iff.1 h
    obtain ⟨depth, i₁₂, hdepth, h⟩ := bind_ok_iff.1 h
    obtain ⟨rfl, rfl⟩ := pure_ok_iff.1 h
    obtain ⟨hdim_lt, rfl⟩ := u16_ok_iff.1 hdim
    obtain ⟨hn_lt, -, rfl⟩ := count_ok_iff.1 hn
    obtain ⟨rfl, rfl⟩ := take_ok_iff.1 htags
    obtain ⟨hfuncs_length, rfl⟩ := take_ok_iff.1 hfuncs
    obtain ⟨hleft_length, rfl⟩ := words_ok_iff.1 hleft
    obtain ⟨houter_fits, rfl⟩ := labels_ok_iff.1 houter
    obtain ⟨hinner_fits, rfl⟩ := labels_ok_iff.1 hinner
    obtain ⟨hbinding_fits, rfl⟩ := labels_ok_iff.1 hbinding
    obtain ⟨hids_fits, rfl⟩ := ids_ok_iff.1 hids
    obtain ⟨hvalues_length, rfl⟩ := patterns_ok_iff.1 hvalues
    obtain ⟨hoffsets_length, rfl⟩ := words_ok_iff.1 hoffsets
    obtain ⟨hdepth_length, rfl⟩ := words_ok_iff.1 hdepth
    obtain ⟨depth, rfl⟩ := List.length_eq_one_iff.1 hdepth_length
    have hdim' : (Int64.ofNat dim).toInt = dim := Int64.toInt_ofNat_of_lt (by omega)
    refine ⟨⟨?_, hn_lt, hfuncs_length, hleft_length, houter_fits, hinner_fits, hbinding_fits,
      hids_fits, hvalues_length, hoffsets_length⟩, ?_⟩
    · rw [hdim']
      omega
    · have hextract : (funcs.toArray.extract 0 tags.length).toList = funcs := by
        rw [← hfuncs_length]
        simp
      simp only [hdim', Tree.nodes, List.size_toArray, hextract, List.append_assoc,
        List.flatMap_cons, List.flatMap_nil, List.headD_cons, List.nil_append]
  · -- The writer wrote each field, and the reader takes it off again.
    rintro ⟨hfits, rfl⟩
    obtain ⟨dim, hdim_lt, hdim⟩ := exists_eq_ofNat hfits.dim.1
    have hdim_fits := hfits.dim
    have hextract : (t.funcs.extract 0 t.nodes).toList = t.funcs.toList := by
      rw [← hfits.funcs, Array.extract_size]
    rw [hdim, Int64.toInt_ofNat_of_lt hdim_lt] at hdim_fits ⊢
    rw [hextract]
    simp only [List.append_assoc]
    refine ⟨dim, _, u16_ok_iff.2 ⟨by omega, rfl⟩, ?_⟩
    refine bind_ok_iff.2 ⟨t.nodes, _, count_ok_iff.2 ⟨hfits.nodes, ?_, rfl⟩, ?_⟩
    · rw [List.length_append, Array.length_toList, Tree.nodes]
      omega
    refine bind_ok_iff.2 ⟨t.tags.toList, _, take_ok_iff.2 ⟨rfl, rfl⟩, ?_⟩
    refine bind_ok_iff.2 ⟨t.funcs.toList, _, take_ok_iff.2 ⟨hfits.funcs, rfl⟩, ?_⟩
    refine bind_ok_iff.2 ⟨t.left.toList, _, words_ok_iff.2 ⟨hfits.left, rfl⟩, ?_⟩
    refine bind_ok_iff.2 ⟨t.outer, _, labels_ok_iff.2 ⟨hfits.outer, rfl⟩, ?_⟩
    refine bind_ok_iff.2 ⟨t.inner, _, labels_ok_iff.2 ⟨hfits.inner, rfl⟩, ?_⟩
    refine bind_ok_iff.2 ⟨t.binding, _, labels_ok_iff.2 ⟨hfits.binding, rfl⟩, ?_⟩
    refine bind_ok_iff.2 ⟨t.ids, _, ids_ok_iff.2 ⟨hfits.ids, rfl⟩, ?_⟩
    refine bind_ok_iff.2 ⟨t.values.toList, _, patterns_ok_iff.2 ⟨hfits.values, rfl⟩, ?_⟩
    refine bind_ok_iff.2 ⟨t.offsets.toList, _, words_ok_iff.2 ⟨hfits.offsets, rfl⟩, ?_⟩
    refine bind_ok_iff.2 ⟨[t.depth], rest, words_ok_iff.2 ⟨rfl, by simp⟩, ?_⟩
    rw [pure_ok_iff, ← hdim]
    exact ⟨rfl, rfl⟩

end Program.Read

/-! ### Kernels -/

/-- A kernel that the format can hold. -/
structure Kernel.Fits {α : Type} (k : Kernel α) : Prop where
  equation : 0 ≤ k.equation.toInt ∧ k.equation.toInt < 2 ^ 32
  targets : k.targets.length < 2 ^ 32
  tree : ∃ t, k.tree = some t ∧ t.Fits

namespace Program.Read

variable {input rest : Bytes}

/-- What is read as a kernel is written for it. -/
lemma kernel_ok_iff {k : Kernel Binary64} :
    kernel input = .ok (k, rest) ↔ k.Fits ∧ input = Write.kernel k ++ rest := by
  rw [kernel, bind_ok_iff, Write.kernel]
  constructor
  · rintro ⟨equation, i₁, hequation, h⟩
    obtain ⟨n, i₂, hn, h⟩ := bind_ok_iff.1 h
    obtain ⟨targets, i₃, htargets, h⟩ := bind_ok_iff.1 h
    obtain ⟨t, i₄, ht, h⟩ := bind_ok_iff.1 h
    obtain ⟨rfl, rfl⟩ := pure_ok_iff.1 h
    obtain ⟨hequation_lt, rfl⟩ := u32_ok_iff.1 hequation
    obtain ⟨hn_lt, -, rfl⟩ := count_ok_iff.1 hn
    obtain ⟨rfl, rfl⟩ := words_ok_iff.1 htargets
    obtain ⟨hfits, rfl⟩ := tree_ok_iff.1 ht
    have hequation' : (Int64.ofNat equation).toInt = equation := Int64.toInt_ofNat_of_lt (by omega)
    refine ⟨⟨?_, hn_lt, t, rfl, hfits⟩, ?_⟩
    · rw [hequation']
      omega
    · simp only [hequation', Option.getD_some, List.append_assoc]
  · obtain ⟨equation, targets, tree⟩ := k
    rintro ⟨⟨hequation, htargets, t, rfl, hfits⟩, rfl⟩
    obtain ⟨equation, hequation_lt, rfl⟩ := exists_eq_ofNat hequation.1
    dsimp only at hequation htargets ⊢
    rw [Int64.toInt_ofNat_of_lt hequation_lt] at hequation ⊢
    have hbound : targets.length * 4 ≤ (targets.flatMap Write.word).length :=
      Bytes.mul_le_length_flatMap fun w _ => (Write.length_word w).ge
    simp only [List.append_assoc, Option.getD_some]
    refine ⟨equation, _, u32_ok_iff.2 ⟨by omega, rfl⟩, ?_⟩
    refine bind_ok_iff.2 ⟨targets.length, _, count_ok_iff.2 ⟨htargets, ?_, rfl⟩, ?_⟩
    · rw [List.length_append]
      omega
    refine bind_ok_iff.2 ⟨targets, _, words_ok_iff.2 ⟨rfl, rfl⟩, ?_⟩
    exact bind_ok_iff.2 ⟨t, _, tree_ok_iff.2 ⟨hfits, rfl⟩, rfl⟩

end Program.Read

end Indicial
