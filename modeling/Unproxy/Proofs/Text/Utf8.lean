import Mathlib
import Unproxy.Text.Utf8
import Unproxy.Proofs.Text.Numeral

/-!
# Unproxy.Proofs.Text.Utf8

Texts and their UTF-8 form.

Main definitions:

* `Utf8.Encodable`: texts without surrogates;
* `Utf8.isBoundary`: the places in the UTF-8 form of a text where a code point ends
  and the next one begins.

Main statements:

* `Utf8.checkEncodable_eq_ok_iff`: these are the texts that have a UTF-8 form;
* `Utf8.decode_encode`: such a text is read back from its bytes;
* `Utf8.exists_decode_eq_error_iff`: bytes that are no such form cannot be read;
* `Utf8.exists_split_of_isBoundary`: at a boundary a text is in two parts.
-/

namespace Unproxy.Utf8

/-! ### Encodable texts -/

/-- A text without surrogates. -/
def Encodable (t : Text) : Prop := ∀ c ∈ t, c.isSurrogate = false

theorem encodable_nil : Encodable [] := fun _ h => absurd h List.not_mem_nil

theorem encodable_cons {c : CodePoint} {t : Text} :
    Encodable (c :: t) ↔ c.isSurrogate = false ∧ Encodable t :=
  List.forall_mem_cons

theorem encodable_append {s t : Text} : Encodable (s ++ t) ↔ Encodable s ∧ Encodable t :=
  List.forall_mem_append

theorem encodable_of_isAscii {t : Text} (h : t.all CodePoint.isAscii = true) : Encodable t := by
  intro c hc
  have hascii := List.all_eq_true.mp h c hc
  simp only [CodePoint.isAscii, decide_eq_true_eq] at hascii
  simp only [CodePoint.isSurrogate, Bool.and_eq_false_iff, decide_eq_false_iff_not]
  omega

theorem checkEncodable_eq_ok_iff {t : Text} : checkEncodable t = .ok () ↔ Encodable t := by
  unfold checkEncodable
  split
  · rename_i hnone
    rw [List.dropWhile_eq_nil_iff] at hnone
    refine iff_of_true rfl fun c hc => ?_
    simpa using hnone c hc
  · rename_i hsome
    refine iff_of_false (by simp) fun h => hsome ?_
    rw [List.dropWhile_eq_nil_iff]
    intro c hc
    simp [h c hc]

/-! ### Reading back -/

theorem encode_nil : encode [] = [] := rfl

theorem encode_cons (c : CodePoint) (t : Text) : encode (c :: t) = encodeOne c ++ encode t :=
  List.flatMap_cons

theorem encode_append (s t : Text) : encode (s ++ t) = encode s ++ encode t :=
  List.flatMap_append

theorem length_encodeOne (c : CodePoint) : (encodeOne c).length = width c := by
  unfold encodeOne width
  dsimp only
  split_ifs <;> rfl

theorem width_pos (c : CodePoint) : 0 < width c := by
  unfold width
  split_ifs <;> decide

theorem toNat_ofNat {n : Nat} (h : n < 256) : (UInt8.ofNat n).toNat = n :=
  UInt8.toNat_ofNat_of_lt' h

theorem isSecond_of_isContinuation {a b : UInt8} (hb : isContinuation b = true)
    (he0 : a.toNat = 0xE0 → 0xA0 ≤ b.toNat) (hed : a.toNat = 0xED → b.toNat < 0xA0)
    (hf0 : a.toNat = 0xF0 → 0x90 ≤ b.toNat) (hf4 : a.toNat = 0xF4 → b.toNat < 0x90) :
    isSecond a b = true := by
  unfold isSecond
  rw [hb, Bool.true_and]
  simp only [beq_iff_eq]
  split_ifs with h0 h1 h2 h3
  · exact decide_eq_true (he0 h0)
  · exact decide_eq_true (hed h1)
  · exact decide_eq_true (hf0 h2)
  · exact decide_eq_true (hf4 h3)
  · rfl

/-- A number below `2 ^ 6` behind the mark of a continuation. -/
theorem isContinuation_ofNat {n : Nat} (h : n < 0x40) :
    isContinuation (UInt8.ofNat (0x80 + n)) = true := by
  simp only [isContinuation, toNat_ofNat (show 0x80 + n < 256 by omega), Bool.and_eq_true,
    decide_eq_true_eq]
  omega

theorem tail_ofNat {n : Nat} (h : n < 0x40) : tail (UInt8.ofNat (0x80 + n)) = n := by
  rw [tail, toNat_ofNat (by omega)]
  omega

section Steps

variable {a b c d : UInt8} (position : Nat) (rest : Bytes)

/-! Sequences of one to four bytes, each read in one step. -/

theorem starts_of_le (ha : 0xC2 ≤ a.toNat ∧ a.toNat ≤ 0xF4) :
    ¬((decide (a.toNat < 0xC2) || decide (0xF4 < a.toNat)) = true) := by
  simp only [Bool.or_eq_true, decide_eq_true_eq]
  omega

theorem decodeFrom_one (ha : a.toNat < 0x80) :
    decodeFrom position (a :: rest) =
      (decodeFrom (position + 1) rest).map (CodePoint.ofNat a.toNat :: ·) := by
  rw [decodeFrom.eq_def]
  dsimp only
  rw [if_pos ha]

theorem decodeFrom_two (ha : 0xC2 ≤ a.toNat ∧ a.toNat < 0xE0) (hb : isContinuation b = true) :
    decodeFrom position (a :: b :: rest) =
      (decodeFrom (position + 2) rest).map
        (CodePoint.ofNat (a.toNat % 0x20 * 0x40 + tail b) :: ·) := by
  rw [decodeFrom.eq_def]
  dsimp only
  rw [if_neg (by omega), if_neg (starts_of_le (by omega)), if_pos ha.2, if_pos hb]

theorem decodeFrom_three (ha : 0xE0 ≤ a.toNat ∧ a.toNat < 0xF0) (hb : isSecond a b = true)
    (hc : isContinuation c = true) :
    decodeFrom position (a :: b :: c :: rest) =
      (decodeFrom (position + 3) rest).map
        (CodePoint.ofNat (a.toNat % 0x10 * 0x1000 + tail b * 0x40 + tail c) :: ·) := by
  rw [decodeFrom.eq_def]
  dsimp only
  rw [if_neg (by omega), if_neg (starts_of_le (by omega)), if_neg (by omega), if_pos ha.2, hb, hc]
  rfl

theorem decodeFrom_four (ha : 0xF0 ≤ a.toNat ∧ a.toNat ≤ 0xF4) (hb : isSecond a b = true)
    (hc : isContinuation c = true) (hd : isContinuation d = true) :
    decodeFrom position (a :: b :: c :: d :: rest) =
      (decodeFrom (position + 4) rest).map
        (CodePoint.ofNat
          (a.toNat % 8 * 0x40000 + tail b * 0x1000 + tail c * 0x40 + tail d) :: ·) := by
  rw [decodeFrom.eq_def]
  dsimp only
  rw [if_neg (by omega), if_neg (starts_of_le (by omega)), if_neg (by omega), if_neg (by omega), hb,
    hc, hd]
  rfl

end Steps

/-- The bytes of a code point that is no surrogate are read as it. -/
theorem decodeFrom_encodeOne {c : CodePoint} (h : c.isSurrogate = false) (position : Nat)
    (rest : Bytes) :
    decodeFrom position (encodeOne c ++ rest) =
      (decodeFrom (position + width c) rest).map (c :: ·) := by
  have hlt := c.isLt
  have hsurrogate : c.val < 0xD800 ∨ 0xE000 ≤ c.val := by
    simp only [CodePoint.isSurrogate, Bool.and_eq_false_iff, decide_eq_false_iff_not] at h
    omega
  have hval : ∀ n, n = c.val → CodePoint.ofNat n = c := by
    rintro n rfl
    exact CodePoint.ofNat_val c
  unfold encodeOne width
  dsimp only
  split_ifs with hone htwo hthree
  · have ha := toNat_ofNat (show c.val < 256 by omega)
    rw [List.cons_append, List.nil_append, decodeFrom_one _ _ (by omega), hval _ ha]
  · have ha := toNat_ofNat (show 0xC0 + c.val / 0x40 < 256 by omega)
    have hlast : c.val % 0x40 < 0x40 := Nat.mod_lt _ (by decide)
    rw [List.cons_append, List.cons_append, List.nil_append,
      decodeFrom_two _ _ (by omega) (isContinuation_ofNat hlast), hval]
    rw [ha, tail_ofNat hlast]
    omega
  · have ha := toNat_ofNat (show 0xE0 + c.val / 0x1000 < 256 by omega)
    have hmiddle : c.val / 0x40 % 0x40 < 0x40 := Nat.mod_lt _ (by decide)
    have hlast : c.val % 0x40 < 0x40 := Nat.mod_lt _ (by decide)
    have hb := toNat_ofNat (show 0x80 + c.val / 0x40 % 0x40 < 256 by omega)
    have hsecond := isSecond_of_isContinuation (a := UInt8.ofNat (0xE0 + c.val / 0x1000))
      (isContinuation_ofNat hmiddle) (by omega) (by omega) (by omega) (by omega)
    rw [List.cons_append, List.cons_append, List.cons_append, List.nil_append,
      decodeFrom_three _ _ (by omega) hsecond (isContinuation_ofNat hlast), hval]
    rw [ha, tail_ofNat hmiddle, tail_ofNat hlast]
    omega
  · have ha := toNat_ofNat (show 0xF0 + c.val / 0x40000 < 256 by omega)
    have hfirst : c.val / 0x1000 % 0x40 < 0x40 := Nat.mod_lt _ (by decide)
    have hmiddle : c.val / 0x40 % 0x40 < 0x40 := Nat.mod_lt _ (by decide)
    have hlast : c.val % 0x40 < 0x40 := Nat.mod_lt _ (by decide)
    have hb := toNat_ofNat (show 0x80 + c.val / 0x1000 % 0x40 < 256 by omega)
    have hsecond := isSecond_of_isContinuation (a := UInt8.ofNat (0xF0 + c.val / 0x40000))
      (isContinuation_ofNat hfirst) (by omega) (by omega) (by omega) (by omega)
    rw [List.cons_append, List.cons_append, List.cons_append, List.cons_append, List.nil_append,
      decodeFrom_four _ _ (by omega) hsecond (isContinuation_ofNat hmiddle)
        (isContinuation_ofNat hlast), hval]
    rw [ha, tail_ofNat hfirst, tail_ofNat hmiddle, tail_ofNat hlast]
    omega

theorem decodeFrom_encode {t : Text} (h : Encodable t) (position : Nat) :
    decodeFrom position (encode t) = .ok t := by
  induction t generalizing position with
  | nil => rfl
  | cons c t ih =>
    rw [encode_cons, decodeFrom_encodeOne (h c List.mem_cons_self),
      ih fun d hd => h d (List.mem_cons_of_mem c hd)]
    rfl

/-- An encodable text is read back from its UTF-8 form. -/
theorem decode_encode {t : Text} (h : Encodable t) :
    decode (encode t) = .ok t :=
  decodeFrom_encode h 0

theorem eq_of_encode_eq {s t : Text} (hs : Encodable s) (ht : Encodable t)
    (h : encode s = encode t) : s = t := by
  have hdecode := decode_encode hs
  rw [h, decode_encode ht] at hdecode
  exact (Except.ok.inj hdecode).symm

/-! ### Bytes that can be read -/

/-- The bytes of a number are those that are read as it. -/
theorem ofNat_eq {n : Nat} {b : UInt8} (h : n = b.toNat) : UInt8.ofNat n = b := by
  rw [h, UInt8.ofNat_toNat]

theorem toNat_lt_of_isContinuation {b : UInt8} (h : isContinuation b = true) :
    0x80 ≤ b.toNat ∧ b.toNat < 0xC0 := by
  simpa [isContinuation] using h

theorem isContinuation_of_isSecond {a b : UInt8} (h : isSecond a b = true) :
    isContinuation b = true := by
  rw [isSecond, Bool.and_eq_true] at h
  exact h.1

theorem bounds_of_isSecond {a b : UInt8} (h : isSecond a b = true) :
    (a.toNat = 0xE0 → 0xA0 ≤ b.toNat) ∧ (a.toNat = 0xED → b.toNat < 0xA0) ∧
      (a.toNat = 0xF0 → 0x90 ≤ b.toNat) ∧ (a.toNat = 0xF4 → b.toNat < 0x90) := by
  rw [isSecond, Bool.and_eq_true] at h
  obtain ⟨-, h⟩ := h
  simp only [beq_iff_eq] at h
  refine ⟨fun ha => ?_, fun ha => ?_, fun ha => ?_, fun ha => ?_⟩
  all_goals
    rw [ha] at h
    simpa using h

/-- A number that is the code point of no surrogate has the bytes it is read from. -/
structure ReadFrom (n : Nat) (bytes : Bytes) : Prop where
  lt : n < 0x110000
  noSurrogate : n < 0xD800 ∨ 0xE000 ≤ n
  bytes_eq : encodeOne (CodePoint.ofNat n) = bytes

theorem readFrom_one {a : UInt8} (ha : a.toNat < 0x80) : ReadFrom a.toNat [a] := by
  refine ⟨by omega, by omega, ?_⟩
  rw [encodeOne, CodePoint.val_ofNat (by omega)]
  simp only [if_pos ha, UInt8.ofNat_toNat]

theorem readFrom_two {a b : UInt8} (ha : 0xC2 ≤ a.toNat ∧ a.toNat < 0xE0)
    (hb : isContinuation b = true) : ReadFrom (a.toNat % 0x20 * 0x40 + tail b) [a, b] := by
  have hb := toNat_lt_of_isContinuation hb
  have hn : a.toNat % 0x20 * 0x40 + tail b = (a.toNat - 0xC0) * 0x40 + (b.toNat - 0x80) := by
    rw [tail]
    omega
  rw [hn]
  refine ⟨by omega, by omega, ?_⟩
  rw [encodeOne, CodePoint.val_ofNat (by omega)]
  rw [if_neg (by omega), if_pos (by omega), ofNat_eq (b := a) (by omega),
    ofNat_eq (b := b) (by omega)]

theorem readFrom_three {a b c : UInt8} (ha : 0xE0 ≤ a.toNat ∧ a.toNat < 0xF0)
    (hb : isSecond a b = true) (hc : isContinuation c = true) :
    ReadFrom (a.toNat % 0x10 * 0x1000 + tail b * 0x40 + tail c) [a, b, c] := by
  obtain ⟨he0, hed, -, -⟩ := bounds_of_isSecond hb
  have hb := toNat_lt_of_isContinuation (isContinuation_of_isSecond hb)
  have hc := toNat_lt_of_isContinuation hc
  have hn : a.toNat % 0x10 * 0x1000 + tail b * 0x40 + tail c =
      (a.toNat - 0xE0) * 0x1000 + (b.toNat - 0x80) * 0x40 + (c.toNat - 0x80) := by
    rw [tail, tail]
    omega
  rw [hn]
  refine ⟨by omega, by omega, ?_⟩
  rw [encodeOne, CodePoint.val_ofNat (by omega)]
  rw [if_neg (by omega), if_neg (by omega), if_pos (by omega), ofNat_eq (b := a) (by omega),
    ofNat_eq (b := b) (by omega), ofNat_eq (b := c) (by omega)]

theorem readFrom_four {a b c d : UInt8} (ha : 0xF0 ≤ a.toNat ∧ a.toNat ≤ 0xF4)
    (hb : isSecond a b = true) (hc : isContinuation c = true) (hd : isContinuation d = true) :
    ReadFrom (a.toNat % 8 * 0x40000 + tail b * 0x1000 + tail c * 0x40 + tail d) [a, b, c, d] := by
  obtain ⟨-, -, hf0, hf4⟩ := bounds_of_isSecond hb
  have hb := toNat_lt_of_isContinuation (isContinuation_of_isSecond hb)
  have hc := toNat_lt_of_isContinuation hc
  have hd := toNat_lt_of_isContinuation hd
  have hn : a.toNat % 8 * 0x40000 + tail b * 0x1000 + tail c * 0x40 + tail d =
      (a.toNat - 0xF0) * 0x40000 + (b.toNat - 0x80) * 0x1000 + (c.toNat - 0x80) * 0x40 +
        (d.toNat - 0x80) := by
    rw [tail, tail, tail]
    omega
  rw [hn]
  refine ⟨by omega, by omega, ?_⟩
  rw [encodeOne, CodePoint.val_ofNat (by omega)]
  rw [if_neg (by omega), if_neg (by omega), if_neg (by omega), ofNat_eq (b := a) (by omega),
    ofNat_eq (b := b) (by omega), ofNat_eq (b := c) (by omega), ofNat_eq (b := d) (by omega)]

theorem ReadFrom.cons {n : Nat} {first rest : Bytes} (h : ReadFrom n first) {t : Text}
    {outcome : Except DecodeError Text}
    (ih : ∀ {t}, outcome = .ok t → Encodable t ∧ encode t = rest)
    (hread : outcome.map (CodePoint.ofNat n :: ·) = .ok t) :
    Encodable t ∧ encode t = first ++ rest := by
  cases outcome with
  | error e => cases hread
  | ok s =>
    cases hread
    obtain ⟨hencodable, hencode⟩ := ih rfl
    refine ⟨encodable_cons.mpr ⟨?_, hencodable⟩, ?_⟩
    · have hn := h.noSurrogate
      simp only [CodePoint.isSurrogate, CodePoint.val_ofNat h.lt, Bool.and_eq_false_iff,
        decide_eq_false_iff_not]
      omega
    · rw [encode_cons, h.bytes_eq, hencode]

/-- Bytes are read as a text only if they are its UTF-8 form. -/
theorem encode_of_decodeFrom {position : Nat} {bytes : Bytes} {t : Text}
    (h : decodeFrom position bytes = .ok t) : Encodable t ∧ encode t = bytes := by
  fun_induction decodeFrom position bytes generalizing t with
  | case1 =>
    cases h
    exact ⟨encodable_nil, rfl⟩
  | case2 position a rest ha ih => exact (readFrom_one ha).cons ih h
  | case5 position a hone hstart htwo b rest hb ih =>
    simp only [Bool.or_eq_true, decide_eq_true_eq, not_or] at hstart
    exact (readFrom_two (by omega) hb).cons ih h
  | case12 position a hone hstart htwo hthree b c rest hb hc ih =>
    exact (readFrom_three (by omega) (by simpa using hb) (by simpa using hc)).cons ih h
  | case22 position a hone hstart htwo hthree b c d rest hb hc hd ih =>
    simp only [Bool.or_eq_true, decide_eq_true_eq, not_or] at hstart
    exact (readFrom_four (by omega) (by simpa using hb) (by simpa using hc)
      (by simpa using hd)).cons ih h
  | _ => cases h

/-- The bytes that cannot be read are those that are no UTF-8 form. -/
theorem exists_decode_eq_error_iff {bytes : Bytes} :
    (∃ e, decode bytes = .error e) ↔ ¬∃ t, Encodable t ∧ encode t = bytes := by
  constructor
  · intro h hform
    obtain ⟨e, he⟩ := h
    obtain ⟨t, hencodable, rfl⟩ := hform
    rw [decode_encode hencodable] at he
    cases he
  · intro h
    cases hdecode : decode bytes with
    | error e => exact ⟨e, rfl⟩
    | ok t => exact absurd ⟨t, encode_of_decodeFrom hdecode⟩ h

/-! ### Boundaries -/

/-- Whether a code point of a text ends after so many bytes, or none has begun. -/
def isBoundary : Text → Nat → Bool
  | _, 0 => true
  | [], _ + 1 => false
  | c :: t, n + 1 => width c ≤ n + 1 && isBoundary t (n + 1 - width c)

theorem isBoundary_append (before after : Text) (n : Nat) :
    isBoundary (before ++ after) ((encode before).length + n) = isBoundary after n := by
  induction before with
  | nil => rw [encode_nil, List.length_nil, Nat.zero_add, List.nil_append]
  | cons c before ih =>
    have hwidth := width_pos c
    rw [encode_cons, List.length_append, length_encodeOne, List.cons_append]
    obtain ⟨k, hk⟩ : ∃ k, width c + (encode before).length + n = k + 1 :=
      ⟨width c + (encode before).length + n - 1, by omega⟩
    rw [hk, isBoundary, ← hk, decide_eq_true (by omega : width c ≤ _), Bool.true_and,
      show width c + (encode before).length + n - width c = (encode before).length + n by omega,
      ih]

/-- A boundary of a text that lies in its first part is one of that part. -/
theorem isBoundary_of_append {before after : Text} {n : Nat}
    (h : isBoundary (before ++ after) n = true) (hn : n ≤ (encode before).length) :
    isBoundary before n = true := by
  induction before generalizing n with
  | nil =>
    obtain rfl : n = 0 := Nat.le_zero.mp hn
    rfl
  | cons c before ih =>
    cases n with
    | zero => rfl
    | succ n =>
      rw [List.cons_append, isBoundary, Bool.and_eq_true, decide_eq_true_eq] at h
      rw [encode_cons, List.length_append, length_encodeOne] at hn
      rw [isBoundary, Bool.and_eq_true, decide_eq_true_eq]
      exact ⟨h.1, ih h.2 (by omega)⟩

theorem isBoundary_length (t : Text) : isBoundary t (encode t).length = true := by
  have h := isBoundary_append t [] 0
  rwa [List.append_nil, Nat.add_zero] at h

/-- At a boundary a text is in two parts. -/
theorem exists_split_of_isBoundary {t : Text} {n : Nat} (h : isBoundary t n = true) :
    ∃ before after, t = before ++ after ∧ (encode before).length = n := by
  induction t generalizing n with
  | nil =>
    cases n with
    | zero => exact ⟨[], [], rfl, rfl⟩
    | succ n => cases h
  | cons c t ih =>
    cases n with
    | zero => exact ⟨[], c :: t, rfl, rfl⟩
    | succ n =>
      rw [isBoundary, Bool.and_eq_true, decide_eq_true_eq] at h
      obtain ⟨before, after, rfl, hlength⟩ := ih h.2
      refine ⟨c :: before, after, rfl, ?_⟩
      rw [encode_cons, List.length_append, length_encodeOne, hlength]
      omega

/-- Between two boundaries lies a text, with the boundaries in between. -/
theorem exists_stretch {t : Text} {low high : Nat} (hle : low ≤ high)
    (hlow : isBoundary t low = true) (hhigh : isBoundary t high = true) :
    ∃ inside, inside <:+: t ∧ ((encode t).drop low).take (high - low) = encode inside ∧
      (encode inside).length = high - low ∧
      ∀ n, low ≤ n → n ≤ high → isBoundary t n = true → isBoundary inside (n - low) = true := by
  obtain ⟨before, behind, rfl, hbefore⟩ := exists_split_of_isBoundary hlow
  have hshift : ∀ n, low ≤ n →
      isBoundary (before ++ behind) n = isBoundary behind (n - low) := by
    intro n hn
    have h := isBoundary_append before behind (n - low)
    rwa [hbefore, Nat.add_sub_cancel' hn] at h
  rw [hshift high hle] at hhigh
  obtain ⟨inside, after, rfl, hinside⟩ := exists_split_of_isBoundary hhigh
  refine ⟨inside, ⟨before, after, List.append_assoc before inside after⟩, ?_, hinside,
    fun n hn hn' h => ?_⟩
  · rw [encode_append, encode_append, ← hbefore, List.drop_left, hbefore, ← hinside,
      List.take_left]
  · rw [hshift n hn] at h
    exact isBoundary_of_append h (by omega)

end Unproxy.Utf8
