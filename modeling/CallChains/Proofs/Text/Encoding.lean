import CallChains.Proofs.Text.Decoding
import Mathlib.Tactic.IntervalCases

/-!
# Decoding what was encoded

The bytes of a character begin with a lead byte that announces the others, and the others hold
the rest of its value, six bits each.  So the reader finishes the character with its last byte,
and the bytes of a text are decoded to the text.

A word of characters with single bytes is decoded and encoded one byte at a time.  With that,
main statement: the places of such a word in a decoded text are the places of its bytes.
-/

namespace CallChains

namespace Utf8

def continuation (n : Nat) : UInt8 := UInt8.ofNat (n % 64 + 128)

theorem toNat_continuation (n : Nat) : (continuation n).toNat = n % 64 + 128 := by
  rw [continuation, UInt8.toNat_ofNat']
  omega

theorem scalar_toNat (c : Char) :
    c.toNat < 0xD800 ∨ (0xE000 <= c.toNat ∧ c.toNat < 0x110000) := by
  have hvalid : c.toNat < 0xD800 ∨ (0xDFFF < c.toNat ∧ c.toNat < 0x110000) := c.valid
  omega

/-!
## Characters with single bytes
-/

def single (c : Char) : UInt8 := UInt8.ofNat c.toNat

section Single

variable {c : Char}

theorem toNat_single (h : hasSingle c = true) : (single c).toNat = c.toNat := by
  have hc := hasSingle_iff.mp h
  rw [single, UInt8.toNat_ofNat']
  omega

theorem isSingle_single (h : hasSingle c = true) : isSingle (single c) = true := by
  rw [isSingle_iff, toNat_single h]
  exact hasSingle_iff.mp h

theorem ofSingle_single (h : hasSingle c = true) : ofSingle (single c) = c := by
  rw [ofSingle, toNat_single h, Char.ofNat_toNat]

theorem single_ofSingle {b : UInt8} (h : isSingle b = true) : single (ofSingle b) = b := by
  have hb := isSingle_iff.mp h
  rw [single, ofSingle, toNat_ofNat_of_scalar (by omega), UInt8.ofNat_toNat]

theorem utf8EncodeChar_of_hasSingle (h : hasSingle c = true) :
    String.utf8EncodeChar c = [single c] := by
  have hc := hasSingle_iff.mp h
  unfold String.utf8EncodeChar
  dsimp only
  rw [Char.toNat_val, if_pos (by omega)]
  rfl

end Single

/-!
## Lead bytes of longer characters
-/

namespace Lead

variable {n : Nat}

theorem ofByte_two (hlow : 2 <= n) (hhigh : n < 32) :
    ofByte (UInt8.ofNat (n + 192)) = .first ⟨n, 1, 0x80, 0xBF⟩ := by
  interval_cases n <;> rfl

theorem ofByte_three (h : n < 16) :
    ofByte (UInt8.ofNat (n + 224)) =
      .first ⟨n, 2, if n = 0 then 0xA0 else 0x80, if n = 13 then 0x9F else 0xBF⟩ := by
  interval_cases n <;> rfl

theorem ofByte_four (h : n < 5) :
    ofByte (UInt8.ofNat (n + 240)) =
      .first ⟨n, 3, if n = 0 then 0x90 else 0x80, if n = 4 then 0x8F else 0xBF⟩ := by
  interval_cases n <;> rfl

end Lead

/-!
## Characters byte by byte
-/

namespace Unfinished

theorem accepts_continuation (u : Unfinished) (n : Nat) : u.accepts (continuation n) = true <->
    u.low.toNat <= n % 64 + 128 ∧ n % 64 + 128 <= u.high.toNat := by
  rw [accepts_iff, toNat_continuation]

theorem accepts_continuation_of_open (value missing n : Nat) :
    accepts ⟨value, missing, 0x80, 0xBF⟩ (continuation n) = true := by
  rw [accepts_continuation]
  simp
  omega

theorem extended_continuation (u : Unfinished) (n : Nat) :
    u.extended (continuation n) = u.value * 64 + n % 64 := by
  rw [extended, toNat_continuation]
  omega

end Unfinished

namespace Decoder

variable {reversed : Text} {n : Nat}

theorem step_first {u : Unfinished} {b : UInt8} (h : Lead.ofByte b = .first u) :
    step ⟨none, reversed⟩ b = ⟨some u, reversed⟩ := by
  simp only [step, begin, h]

theorem step_continuation {value missing : Nat} {low high : UInt8}
    (h : Unfinished.accepts ⟨value, missing, low, high⟩ (continuation n) = true)
    (hmissing : missing ≠ 1) :
    step ⟨some ⟨value, missing, low, high⟩, reversed⟩ (continuation n) =
      ⟨some ⟨value * 64 + n % 64, missing - 1, 0x80, 0xBF⟩, reversed⟩ := by
  simp only [step, h, if_true, if_neg hmissing, Unfinished.extended_continuation]

theorem step_last (value n : Nat) (reversed : Text) :
    step ⟨some ⟨value, 1, 0x80, 0xBF⟩, reversed⟩ (continuation n) =
      ⟨none, Char.ofNat (value * 64 + n % 64) :: reversed⟩ := by
  simp only [step, Unfinished.accepts_continuation_of_open, if_true,
    Unfinished.extended_continuation]

theorem foldl_two {c : Char} (hlow : 0x80 <= c.toNat) (hhigh : c.toNat < 0x800) :
    [UInt8.ofNat (c.toNat / 64 % 32 + 192), continuation c.toNat].foldl step ⟨none, reversed⟩ =
      ⟨none, c :: reversed⟩ := by
  have hvalue : c.toNat / 64 % 32 * 64 + c.toNat % 64 = c.toNat := by omega
  rw [List.foldl_cons, step_first (Lead.ofByte_two (by omega) (by omega)), List.foldl_cons,
    step_last, hvalue, Char.ofNat_toNat, List.foldl_nil]

theorem foldl_three {c : Char} (hlow : 0x800 <= c.toNat) (hhigh : c.toNat < 0x10000) :
    [UInt8.ofNat (c.toNat / 4096 % 16 + 224), continuation (c.toNat / 64),
      continuation c.toNat].foldl step ⟨none, reversed⟩ = ⟨none, c :: reversed⟩ := by
  have hscalar := scalar_toNat c
  have hvalue : (c.toNat / 4096 % 16 * 64 + c.toNat / 64 % 64) * 64 + c.toNat % 64 =
      c.toNat := by omega
  rw [List.foldl_cons, step_first (Lead.ofByte_three (by omega)), List.foldl_cons,
    step_continuation, List.foldl_cons, step_last, hvalue, Char.ofNat_toNat, List.foldl_nil]
  · -- The narrowed ranges leave out values below `800` and the surrogates.
    rw [Unfinished.accepts_continuation]
    dsimp only
    split_ifs <;> simp <;> omega
  · exact Nat.succ_ne_self 1

theorem foldl_four {c : Char} (hlow : 0x10000 <= c.toNat) :
    [UInt8.ofNat (c.toNat / 262144 % 8 + 240), continuation (c.toNat / 4096),
      continuation (c.toNat / 64), continuation c.toNat].foldl step ⟨none, reversed⟩ =
      ⟨none, c :: reversed⟩ := by
  have hscalar := scalar_toNat c
  have hvalue : ((c.toNat / 262144 % 8 * 64 + c.toNat / 4096 % 64) * 64 +
      c.toNat / 64 % 64) * 64 + c.toNat % 64 = c.toNat := by omega
  rw [List.foldl_cons, step_first (Lead.ofByte_four (by omega)), List.foldl_cons,
    step_continuation, List.foldl_cons,
    step_continuation (Unfinished.accepts_continuation_of_open _ _ _) (Nat.succ_ne_self 1),
    List.foldl_cons, step_last, hvalue, Char.ofNat_toNat, List.foldl_nil]
  · -- Here they leave out values below `10000` and above `10FFFF`.
    rw [Unfinished.accepts_continuation]
    dsimp only
    split_ifs <;> simp <;> omega
  · simp

theorem foldl_step_utf8EncodeChar (c : Char) (reversed : Text) :
    (String.utf8EncodeChar c).foldl step ⟨none, reversed⟩ = ⟨none, c :: reversed⟩ := by
  by_cases hsingle : hasSingle c = true
  · rw [utf8EncodeChar_of_hasSingle hsingle]
    simp [step, begin, Lead.ofByte_of_isSingle (isSingle_single hsingle), ofSingle_single hsingle]
  · have hlow : 0x80 <= c.toNat := by simpa [hasSingle] using hsingle
    unfold String.utf8EncodeChar
    dsimp only
    rw [Char.toNat_val, if_neg (by omega)]
    split_ifs
    · exact foldl_two hlow (by omega)
    · exact foldl_three (by omega) (by omega)
    · exact foldl_four (by omega)

theorem foldl_step_encode (text reversed : Text) :
    (encode text).foldl step ⟨none, reversed⟩ = ⟨none, text.reverse ++ reversed⟩ := by
  induction text generalizing reversed with
  | nil => rfl
  | cons c text ih =>
      rw [encode, List.flatMap_cons, List.foldl_append, foldl_step_utf8EncodeChar, ← encode, ih,
        List.reverse_cons, List.append_assoc, List.singleton_append]

end Decoder

theorem decode_encode (text : Text) : decode (encode text) = text := by
  rw [decode, Decoder.initial, Decoder.foldl_step_encode, List.append_nil]
  exact List.reverse_reverse text

/-!
## Places of words with single bytes
-/

theorem encode_cons {c : Char} (hc : hasSingle c = true) (text : Text) :
    encode (c :: text) = single c :: encode text := by
  rw [encode, List.flatMap_cons, utf8EncodeChar_of_hasSingle hc]
  rfl

theorem isSingle_of_mem_encode {word : Text} (h : forall c, c ∈ word -> hasSingle c = true) :
    forall b, b ∈ encode word -> isSingle b = true := by
  induction word with
  | nil => exact List.forall_mem_nil _
  | cons c word ih =>
      rcases List.forall_mem_cons.mp h with ⟨hc, hword⟩
      rw [encode_cons hc, List.forall_mem_cons]
      exact ⟨isSingle_single hc, ih hword⟩

theorem exists_first_single (bytes : List UInt8) :
    (forall b, b ∈ bytes -> isSingle b = false) ∨
      exists (front : List UInt8) (b : UInt8) (back : List UInt8),
        bytes = front ++ b :: back ∧ (forall b, b ∈ front -> isSingle b = false) ∧
          isSingle b = true := by
  cases hfind : bytes.find? isSingle with
  | none =>
      left
      intro b hb
      exact Bool.eq_false_iff.mpr (List.find?_eq_none.mp hfind b hb)
  | some b =>
      right
      rcases List.find?_eq_some_iff_append.mp hfind with ⟨hb, front, back, hbytes, hfront⟩
      refine ⟨front, b, back, hbytes, ?_, hb⟩
      intro x hx
      simpa using hfront x hx

/-- The first single byte is either the character or one that stands before it. -/
theorem exists_place_of_char {c : Char} (hc : hasSingle c = true) {bytes : List UInt8}
    {before after : Text} (h : decode bytes = before ++ c :: after) :
    exists front back : List UInt8,
      bytes = front ++ single c :: back ∧ decode front = before ∧ decode back = after := by
  have hnotMem : forall {others : List UInt8}, (forall b, b ∈ others -> isSingle b = false) ->
      c ∉ decode others := by
    intro others hothers hmem
    rw [hasSingle_of_mem_decode hothers c hmem] at hc
    cases hc
  rcases exists_first_single bytes with hnone | ⟨start, b, rest, rfl, hstart, hb⟩
  · exact absurd (h ▸ List.mem_append_cons_self) (hnotMem hnone)
  · rw [decode_append_cons hb] at h
    rcases List.append_eq_append_iff.mp h with ⟨between, hbefore, hrest⟩ | ⟨between, hfront, hrest⟩
    · cases between with
      | nil =>
          rcases List.cons.inj hrest with ⟨rfl, hafter⟩
          rw [List.append_nil] at hbefore
          exact ⟨start, rest, by rw [single_ofSingle hb], hbefore.symm, hafter⟩
      | cons d between =>
          rcases List.cons.inj hrest with ⟨rfl, hlater⟩
          rcases exists_place_of_char hc hlater with ⟨front, back, rfl, hfront, hback⟩
          refine ⟨start ++ b :: front, back, by simp, ?_, hback⟩
          rw [decode_append_cons hb, hfront, hbefore]
    · cases between with
      | nil =>
          rcases List.cons.inj hrest with ⟨rfl, hafter⟩
          rw [List.append_nil] at hfront
          exact ⟨start, rest, by rw [single_ofSingle hb], hfront, hafter.symm⟩
      | cons d between =>
          rcases List.cons.inj hrest with ⟨rfl, _⟩
          exact absurd (hfront ▸ List.mem_append_cons_self) (hnotMem hstart)
termination_by bytes.length

theorem decode_append_encode {word : Text} (hne : word ≠ [])
    (hword : forall c, c ∈ word -> hasSingle c = true) (front back : List UInt8) :
    decode (front ++ (encode word ++ back)) = decode front ++ (word ++ decode back) := by
  have hbytes := isSingle_of_mem_encode hword
  have hhead : forall b, b ∈ (encode word ++ back).head? -> isSingle b = true := by
    cases word with
    | nil => exact absurd rfl hne
    | cons c word =>
        have hc := hword c List.mem_cons_self
        intro b hb
        rw [encode_cons hc] at hb
        cases hb
        exact isSingle_single hc
  rw [decode_append_of_head hhead, decode_append_of_single hbytes, ← decode_of_single hbytes,
    decode_encode]

theorem decode_eq_append_iff {word : Text} (hne : word ≠ [])
    (hword : forall c, c ∈ word -> hasSingle c = true) {bytes : List UInt8}
    {before after : Text} :
    decode bytes = before ++ (word ++ after) <->
      exists front back : List UInt8,
        bytes = front ++ (encode word ++ back) ∧ decode front = before ∧ decode back = after := by
  constructor
  · intro h
    induction word generalizing bytes before with
    | nil => exact absurd rfl hne
    | cons c word ih =>
        rcases List.forall_mem_cons.mp hword with ⟨hc, hrest⟩
        rcases exists_place_of_char hc h with ⟨front, back, rfl, hfront, hback⟩
        rw [encode_cons hc]
        by_cases hlast : word = []
        · cases hlast
          exact ⟨front, back, rfl, hfront, hback⟩
        · have hstart : decode back = [] ++ (word ++ after) := hback
          rcases ih hlast hrest hstart with ⟨gap, rest, rfl, hgap, hafter⟩
          have hempty : gap = [] := by
            by_contra hgapNe
            exact decode_ne_nil hgapNe hgap
          rw [hempty]
          exact ⟨front, rest, rfl, hfront, hafter⟩
  · intro h
    rcases h with ⟨front, back, rfl, rfl, rfl⟩
    exact decode_append_encode hne hword front back

end Utf8

end CallChains
