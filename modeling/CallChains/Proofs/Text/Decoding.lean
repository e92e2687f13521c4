import CallChains.Text.Utf8
import Mathlib.Algebra.Order.Ring.Nat

/-!
# Single bytes in a decoded text

A byte below `80` is a character of its own, and no such byte can continue a character.  So
it ends whatever character was in the making, and what stands in front of it and behind it is
decoded as if it were alone.  All other bytes give other characters: a character in the making
can only get a value that no single byte has, and what breaks off is replaced.

Main statements: a text is decoded in the pieces into which its single bytes divide it, and
the bytes between them give characters that no single byte gives.
-/

namespace CallChains

namespace Utf8

def isSingle (b : UInt8) : Bool := b < 0x80

def hasSingle (c : Char) : Bool := c.toNat < 0x80

def ofSingle (b : UInt8) : Char := Char.ofNat b.toNat

theorem isSingle_iff {b : UInt8} : isSingle b = true <-> b.toNat < 0x80 := by
  simp [isSingle, UInt8.lt_iff_toNat_lt]

theorem hasSingle_iff {c : Char} : hasSingle c = true <-> c.toNat < 0x80 := decide_eq_true_iff

theorem hasSingle_replacement : hasSingle replacement = false := by decide

theorem toNat_ofNat_of_scalar {n : Nat}
    (h : n < 0xD800 ∨ (0xE000 <= n ∧ n < 0x110000)) : (Char.ofNat n).toNat = n := by
  have hvalid : n.isValidChar := by
    unfold Nat.isValidChar
    omega
  rw [Char.ofNat, dif_pos hvalid]
  rfl

theorem hasSingle_ofSingle {b : UInt8} (h : isSingle b = true) : hasSingle (ofSingle b) = true := by
  have hb := isSingle_iff.mp h
  rw [hasSingle_iff, ofSingle, toNat_ofNat_of_scalar (by omega)]
  exact hb

/-!
## Characters in the making
-/

namespace Unfinished

def least (u : Unfinished) : Nat :=
  (u.value * 64 + u.low.toNat % 64) * 64 ^ (u.missing - 1)

def bound (u : Unfinished) : Nat :=
  (u.value * 64 + u.high.toNat % 64 + 1) * 64 ^ (u.missing - 1)

/-- The character is waiting for bytes above the single ones, and whichever come, it gets a
value that is a character's but no single byte's. -/
structure Sound (u : Unfinished) : Prop where
  low : 0x80 <= u.low.toNat
  high : u.high.toNat <= 0xBF
  missing : 1 <= u.missing
  least : 0x80 <= u.least
  scalar : u.bound <= 0xD800 ∨ (0xE000 <= u.least ∧ u.bound <= 0x110000)

variable {u : Unfinished} {b : UInt8}

theorem accepts_iff : u.accepts b = true <-> u.low.toNat <= b.toNat ∧ b.toNat <= u.high.toNat := by
  simp [accepts, UInt8.le_iff_toNat_le]

theorem accepts_of_isSingle (h : u.Sound) (hb : isSingle b = true) : u.accepts b = false := by
  have hlow := h.low
  have hsingle := isSingle_iff.mp hb
  rw [Bool.eq_false_iff, ne_eq, accepts_iff]
  omega

/-- What can still come is divided among the bytes that can come next. -/
theorem bounds_of_accepts (h : u.Sound) (hb : u.accepts b = true) :
    u.least <= u.extended b * 64 ^ (u.missing - 1) ∧
      (u.extended b + 1) * 64 ^ (u.missing - 1) <= u.bound := by
  have hlow := h.low
  have hhigh := h.high
  have haccepts := accepts_iff.mp hb
  constructor
  · apply Nat.mul_le_mul_right
    unfold extended
    omega
  · apply Nat.mul_le_mul_right
    unfold extended
    omega

theorem sound_of_accepts (h : u.Sound) (hb : u.accepts b = true) (hmissing : u.missing ≠ 1) :
    Sound ⟨u.extended b, u.missing - 1, 0x80, 0xBF⟩ := by
  have hpos := h.missing
  have hleast := h.least
  have hscalar := h.scalar
  have hbounds := bounds_of_accepts h hb
  -- The byte after it may be any that continues a character: what is left has 64 equal shares.
  have hpow : 64 ^ (u.missing - 1) = 64 * 64 ^ (u.missing - 1 - 1) := by
    rw [← Nat.pow_succ', Nat.succ_eq_add_one, Nat.sub_add_cancel (by omega)]
  rw [hpow, ← Nat.mul_assoc, ← Nat.mul_assoc] at hbounds
  have hnext : least ⟨u.extended b, u.missing - 1, 0x80, 0xBF⟩ =
      u.extended b * 64 * 64 ^ (u.missing - 1 - 1) := by
    simp [least]
  have hlast : bound ⟨u.extended b, u.missing - 1, 0x80, 0xBF⟩ =
      (u.extended b + 1) * 64 * 64 ^ (u.missing - 1 - 1) := by
    unfold bound
    congr 1
    simp [Nat.add_mul]
  constructor
  · exact le_refl 0x80
  · exact le_refl 0xBF
  · show 1 <= u.missing - 1
    omega
  · omega
  · omega

theorem hasSingle_of_accepts (h : u.Sound) (hb : u.accepts b = true) (hmissing : u.missing = 1) :
    hasSingle (Char.ofNat (u.extended b)) = false := by
  have hleast := h.least
  have hscalar := h.scalar
  have hbounds := bounds_of_accepts h hb
  rw [hmissing, Nat.sub_self, Nat.pow_zero, Nat.mul_one, Nat.mul_one] at hbounds
  rw [Bool.eq_false_iff, ne_eq, hasSingle_iff, toNat_ofNat_of_scalar (by omega)]
  omega

end Unfinished

/-!
## Lead bytes
-/

namespace Lead

variable {b : UInt8}

theorem ofByte_of_isSingle (h : isSingle b = true) : ofByte b = .whole (ofSingle b) :=
  if_pos (of_decide_eq_true h)

theorem isSingle_of_ofByte {c : Char} (h : ofByte b = .whole c) : isSingle b = true := by
  by_contra hb
  unfold ofByte at h
  rw [if_neg (of_decide_eq_false (Bool.eq_false_iff.mpr hb))] at h
  split_ifs at h

theorem sound_of_ofByte {u : Unfinished} (h : ofByte b = .first u) : u.Sound := by
  unfold ofByte at h
  simp only [UInt8.lt_iff_toNat_lt, ← UInt8.toNat_inj, UInt8.reduceToNat] at h
  -- One case for each row of the table.
  split_ifs at h <;> simp only [first.injEq] at h <;> subst h <;> constructor <;>
    simp only [Unfinished.least, Unfinished.bound, UInt8.reduceToNat] <;> omega

end Lead

/-!
## The reader
-/

namespace Decoder

def behind (before : Text) (d : Decoder) : Decoder :=
  ⟨d.unfinished, d.reversed ++ before.reverse⟩

/-- A character in the making is one that the table of lead bytes can lead to. -/
def Sound (d : Decoder) : Prop := forall u, d.unfinished = some u -> u.Sound

variable {d : Decoder} {b : UInt8}

@[simp] theorem finish_behind (before : Text) (d : Decoder) :
    (d.behind before).finish = before ++ d.finish := by
  rcases d with ⟨unfinished, reversed⟩
  cases unfinished <;> simp [behind, finish]

theorem begin_append (reversed before : Text) (b : UInt8) :
    begin (reversed ++ before.reverse) b = (begin reversed b).behind before := by
  unfold begin
  cases Lead.ofByte b <;> rfl

theorem step_behind (before : Text) (d : Decoder) (b : UInt8) :
    (d.behind before).step b = (d.step b).behind before := by
  rcases d with ⟨unfinished, reversed⟩
  cases unfinished with
  | none => exact begin_append reversed before b
  | some u =>
      simp only [behind, step]
      split_ifs
      · rfl
      · rfl
      · exact begin_append (replacement :: reversed) before b

theorem foldl_step_behind (before : Text) (d : Decoder) (bytes : List UInt8) :
    bytes.foldl step (d.behind before) = (bytes.foldl step d).behind before := by
  induction bytes generalizing d with
  | nil => rfl
  | cons b bytes ih => rw [List.foldl_cons, List.foldl_cons, step_behind, ih]

theorem sound_begin (reversed : Text) (b : UInt8) : Sound (begin reversed b) := by
  intro u hu
  unfold begin at hu
  split at hu
  · cases hu
  · next hfirst =>
      cases hu
      exact Lead.sound_of_ofByte hfirst
  · cases hu

theorem sound_step (h : d.Sound) (b : UInt8) : (d.step b).Sound := by
  rcases d with ⟨unfinished, reversed⟩
  cases unfinished with
  | none => exact sound_begin reversed b
  | some u =>
      have hu : u.Sound := h u rfl
      unfold step
      dsimp only
      split_ifs with haccepts hmissing
      · intro v hv
        cases hv
      · intro v hv
        cases hv
        exact Unfinished.sound_of_accepts hu haccepts hmissing
      · exact sound_begin (replacement :: reversed) b

theorem sound_foldl (h : d.Sound) (bytes : List UInt8) : (bytes.foldl step d).Sound := by
  induction bytes generalizing d with
  | nil => exact h
  | cons b bytes ih => exact ih (sound_step h b)

theorem sound_initial : initial.Sound := by
  intro u hu
  cases hu

theorem step_of_isSingle (h : d.Sound) (hb : isSingle b = true) :
    d.step b = initial.behind (d.finish ++ [ofSingle b]) := by
  rcases d with ⟨unfinished, reversed⟩
  cases unfinished with
  | none => simp [step, begin, Lead.ofByte_of_isSingle hb, behind, initial, finish]
  | some u =>
      have haccepts := Unfinished.accepts_of_isSingle (h u rfl) hb
      simp [step, haccepts, begin, Lead.ofByte_of_isSingle hb, behind, initial, finish]

theorem finish_step_ne_nil (d : Decoder) (b : UInt8) : (d.step b).finish ≠ [] := by
  have hbegin : forall reversed, (begin reversed b).finish ≠ [] := by
    intro reversed
    unfold begin
    cases Lead.ofByte b <;> simp [finish]
  rcases d with ⟨unfinished, reversed⟩
  cases unfinished with
  | none => exact hbegin reversed
  | some u =>
      unfold step
      dsimp only
      split_ifs
      · simp [finish]
      · simp [finish]
      · exact hbegin (replacement :: reversed)

theorem hasSingle_of_mem_begin {reversed : Text} (hb : isSingle b = false)
    (h : forall c, c ∈ reversed -> hasSingle c = false) :
    forall c, c ∈ (begin reversed b).reversed -> hasSingle c = false := by
  unfold begin
  cases hlead : Lead.ofByte b with
  | whole c => exact absurd (Lead.isSingle_of_ofByte hlead) (Bool.eq_false_iff.mp hb)
  | first u => exact h
  | stray => exact List.forall_mem_cons.mpr ⟨hasSingle_replacement, h⟩

theorem hasSingle_of_mem_step (hsound : d.Sound) (hb : isSingle b = false)
    (h : forall c, c ∈ d.reversed -> hasSingle c = false) :
    forall c, c ∈ (d.step b).reversed -> hasSingle c = false := by
  rcases d with ⟨unfinished, reversed⟩
  cases unfinished with
  | none => exact hasSingle_of_mem_begin hb h
  | some u =>
      unfold step
      dsimp only
      split_ifs with haccepts hmissing
      · have hlast := Unfinished.hasSingle_of_accepts (hsound u rfl) haccepts hmissing
        exact List.forall_mem_cons.mpr ⟨hlast, h⟩
      · exact h
      · exact hasSingle_of_mem_begin hb (List.forall_mem_cons.mpr ⟨hasSingle_replacement, h⟩)

theorem hasSingle_of_mem_foldl {bytes : List UInt8} (hsound : d.Sound)
    (hbytes : forall b, b ∈ bytes -> isSingle b = false)
    (h : forall c, c ∈ d.reversed -> hasSingle c = false) :
    forall c, c ∈ (bytes.foldl step d).reversed -> hasSingle c = false := by
  induction bytes generalizing d with
  | nil => exact h
  | cons b bytes ih =>
      rcases List.forall_mem_cons.mp hbytes with ⟨hb, hrest⟩
      exact ih (sound_step hsound b) hrest (hasSingle_of_mem_step hsound hb h)

theorem hasSingle_of_mem_finish (h : forall c, c ∈ d.reversed -> hasSingle c = false) :
    forall c, c ∈ d.finish -> hasSingle c = false := by
  rcases d with ⟨unfinished, reversed⟩
  intro c hc
  cases unfinished with
  | none => exact h c (List.mem_reverse.mp hc)
  | some u =>
      rcases List.mem_cons.mp (List.mem_reverse.mp hc) with hreplacement | hreversed
      · rw [hreplacement]
        exact hasSingle_replacement
      · exact h c hreversed

end Decoder

/-!
## The decoded text
-/

section Bytes

variable {bytes front back : List UInt8} {b : UInt8}

theorem decode_append_cons (hb : isSingle b = true) (front back : List UInt8) :
    decode (front ++ b :: back) = decode front ++ ofSingle b :: decode back := by
  have hsound := Decoder.sound_foldl Decoder.sound_initial front
  unfold decode
  rw [List.foldl_append, List.foldl_cons, Decoder.step_of_isSingle hsound hb,
    Decoder.foldl_step_behind, Decoder.finish_behind, List.append_assoc,
    List.singleton_append]

theorem decode_append_of_head (h : forall b, b ∈ back.head? -> isSingle b = true) :
    decode (front ++ back) = decode front ++ decode back := by
  cases back with
  | nil => simp [decode, Decoder.initial, Decoder.finish]
  | cons b back =>
      have hb := h b rfl
      rw [decode_append_cons hb, ← List.nil_append (b :: back), decode_append_cons hb]
      rfl

theorem decode_append_of_single (h : forall b, b ∈ front -> isSingle b = true) :
    decode (front ++ back) = front.map ofSingle ++ decode back := by
  induction front with
  | nil => rfl
  | cons b front ih =>
      rcases List.forall_mem_cons.mp h with ⟨hb, hfront⟩
      rw [List.cons_append, ← List.nil_append (b :: (front ++ back)), decode_append_cons hb,
        ih hfront]
      rfl

theorem decode_of_single (h : forall b, b ∈ bytes -> isSingle b = true) :
    decode bytes = bytes.map ofSingle := by
  have hnil : decode [] = [] := rfl
  rw [← List.append_nil bytes, decode_append_of_single h, hnil, List.append_nil,
    List.append_nil]

theorem decode_ne_nil (h : bytes ≠ []) : decode bytes ≠ [] := by
  rcases List.eq_nil_or_concat bytes with hnil | ⟨front, b, hbytes⟩
  · exact absurd hnil h
  · rw [hbytes, List.concat_eq_append, decode, List.foldl_append]
    exact Decoder.finish_step_ne_nil _ b

theorem hasSingle_of_mem_decode {kind : Bool} (h : forall b, b ∈ bytes -> isSingle b = kind) :
    forall c, c ∈ decode bytes -> hasSingle c = kind := by
  cases kind with
  | true =>
      rw [decode_of_single h, List.forall_mem_map]
      intro b hb
      exact hasSingle_ofSingle (h b hb)
  | false =>
      have hinitial : forall c, c ∈ Decoder.initial.reversed -> hasSingle c = false := by
        intro c hc
        cases hc
      exact Decoder.hasSingle_of_mem_finish
        (Decoder.hasSingle_of_mem_foldl Decoder.sound_initial h hinitial)

end Bytes

end Utf8

end CallChains
