import Mathlib
import Unproxy.Text.Utf16
import Unproxy.Proofs.Text.Numeral

/-!
# Unproxy.Proofs.Text.Units

Texts and their 16-bit units.

Main definitions:

* `Utf16.Joined`: no high surrogate of a text stands right before a low one.

Main statements:

* `Utf16.decode_encode`: the units of such a text spell it;
* `Utf16.encode_decode`, `Utf16.joined_decode`: any units are those of the text they spell, and
  that is such a text;
* `Utf16.encode_lt`: units have sixteen bits.
-/

namespace Unproxy.Utf16

/-- No high surrogate stands right before a low one. -/
def Joined (t : Text) : Prop :=
  t.IsChain fun a b => ¬(a.isHighSurrogate = true ∧ b.isLowSurrogate = true)

instance (t : Text) : Decidable (Joined t) :=
  inferInstanceAs (Decidable (List.IsChain _ t))

theorem joined_nil : Joined [] := List.isChain_nil

theorem Joined.tail {c : CodePoint} {t : Text} (h : Joined (c :: t)) : Joined t :=
  List.IsChain.tail h

/-! ### Single code points -/

theorem encodeOne_of_lt {c : CodePoint} (h : c.val < 0x10000) : encodeOne c = [c.val] :=
  if_pos h

theorem encodeOne_of_le {c : CodePoint} (h : 0x10000 ≤ c.val) :
    encodeOne c = [0xD800 + (c.val - 0x10000) / 0x400, 0xDC00 + (c.val - 0x10000) % 0x400] :=
  if_neg (Nat.not_lt.mpr h)

theorem isHigh_first {c : CodePoint} (h : 0x10000 ≤ c.val) :
    isHigh (0xD800 + (c.val - 0x10000) / 0x400) = true := by
  have hc := c.isLt
  simp only [isHigh, Bool.and_eq_true, decide_eq_true_eq]
  omega

theorem isLow_second (c : CodePoint) : isLow (0xDC00 + (c.val - 0x10000) % 0x400) = true := by
  simp only [isLow, Bool.and_eq_true, decide_eq_true_eq]
  omega

/-- The two halves of a code point stand for it. -/
theorem pair_halves {c : CodePoint} (h : 0x10000 ≤ c.val) :
    pair (0xD800 + (c.val - 0x10000) / 0x400) (0xDC00 + (c.val - 0x10000) % 0x400) = c := by
  have hc := c.isLt
  refine Fin.ext ?_
  rw [pair, CodePoint.val_ofNat (by omega)]
  omega

theorem encodeOne_lt {c : CodePoint} {u : Nat} (hu : u ∈ encodeOne c) : u < 0x10000 := by
  have hc := c.isLt
  unfold encodeOne at hu
  split at hu
  · rename_i h
    rw [List.mem_singleton.mp hu]
    exact h
  · simp only [List.mem_cons, List.not_mem_nil, or_false] at hu
    omega

theorem length_encodeOne_pos (c : CodePoint) : 0 < (encodeOne c).length := by
  unfold encodeOne
  split <;> exact Nat.succ_pos _

/-! ### Texts -/

theorem encode_cons (c : CodePoint) (t : Text) : encode (c :: t) = encodeOne c ++ encode t :=
  List.flatMap_cons

theorem encode_lt {t : Text} {u : Nat} (hu : u ∈ encode t) : u < 0x10000 := by
  obtain ⟨c, -, hc⟩ := List.mem_flatMap.mp hu
  exact encodeOne_lt hc

/-- Below the first surrogate a code point is its own unit. -/
theorem encode_of_isAscii {t : Text} (h : t.all CodePoint.isAscii = true) :
    encode t = t.map Fin.val := by
  induction t with
  | nil => rfl
  | cons c t ih =>
    rw [List.all_cons, Bool.and_eq_true] at h
    have hc : c.val < 0x80 := by simpa [CodePoint.isAscii] using h.1
    rw [encode_cons, encodeOne_of_lt (by omega), ih h.2]
    rfl

/-- Only an ASCII text itself has its units. -/
theorem eq_of_encode_isAscii {s t : Text} (hs : s.all CodePoint.isAscii = true)
    (h : encode t = encode s) : t = s := by
  rw [encode_of_isAscii hs] at h
  have ht : t.all CodePoint.isAscii = true := by
    rw [List.all_eq_true] at hs ⊢
    intro c hc
    -- Both units of a code point beyond the first plane are surrogates.
    have hunits : ∀ u ∈ encodeOne c, u < 0x80 := by
      intro u hu
      have hmem : u ∈ encode t := List.mem_flatMap.mpr ⟨c, hc, hu⟩
      rw [h] at hmem
      obtain ⟨d, hd, rfl⟩ := List.mem_map.mp hmem
      simpa [CodePoint.isAscii] using hs d hd
    by_cases hplane : c.val < 0x10000
    · rw [encodeOne_of_lt hplane] at hunits
      simpa [CodePoint.isAscii] using hunits
    · rw [encodeOne_of_le (by omega)] at hunits
      have hfirst := hunits _ List.mem_cons_self
      omega
  rw [encode_of_isAscii ht] at h
  exact List.map_injective_iff.mpr Fin.val_injective h

/-- The units of a text begin with a low half only if the text does. -/
theorem isLowSurrogate_of_encode {d : CodePoint} {t : Text} {v : Nat} {rest : List Nat}
    (h : encode (d :: t) = v :: rest) (hv : isLow v = true) : d.isLowSurrogate = true := by
  rw [encode_cons] at h
  by_cases hd : d.val < 0x10000
  · rw [encodeOne_of_lt hd, List.singleton_append] at h
    injection h with h
    subst h
    exact hv
  · have hhigh := isHigh_first (Nat.not_lt.mp hd)
    rw [encodeOne_of_le (Nat.not_lt.mp hd), List.cons_append] at h
    injection h with h
    rw [h] at hhigh
    simp only [isHigh, isLow, Bool.and_eq_true, decide_eq_true_eq] at hhigh hv
    omega

/-- A text that begins with a low half has units that do. -/
theorem isLow_of_encode {d : CodePoint} {t : Text} {v : Nat} {rest : List Nat}
    (h : encode (d :: t) = v :: rest) (hd : d.isLowSurrogate = true) : isLow v = true := by
  have hlow := hd
  simp only [CodePoint.isLowSurrogate, Bool.and_eq_true, decide_eq_true_eq] at hlow
  rw [encode_cons, encodeOne_of_lt (by omega), List.singleton_append] at h
  rw [← (List.cons.inj h).1]
  exact hd

/-- A unit that begins no pair stands for itself. -/
theorem decode_cons_of_lone {u : Nat} {units : List Nat}
    (h : ∀ v rest, units = v :: rest → ¬(isHigh u = true ∧ isLow v = true)) :
    decode (u :: units) = CodePoint.ofNat u :: decode units := by
  cases units with
  | nil => rfl
  | cons v rest =>
    have hlone : (isHigh u && isLow v) = false := by
      rw [Bool.eq_false_iff, ne_eq, Bool.and_eq_true]
      exact h v rest rfl
    rw [decode, hlone]
    rfl

/-- The units of a text without unjoined halves spell the text. -/
theorem decode_encode {t : Text} (h : Joined t) : decode (encode t) = t := by
  induction t with
  | nil => rfl
  | cons c t ih =>
    rw [encode_cons]
    by_cases hc : c.val < 0x10000
    · rw [encodeOne_of_lt hc, List.singleton_append, decode_cons_of_lone, ih h.tail,
        CodePoint.ofNat_val]
      rintro v rest hrest ⟨hhigh, hlow⟩
      cases t with
      | nil => cases hrest
      | cons d t =>
        exact (List.isChain_cons_cons.mp h).1 ⟨hhigh, isLowSurrogate_of_encode hrest hlow⟩
    · have hle := Nat.not_lt.mp hc
      rw [encodeOne_of_le hle, List.cons_append, List.singleton_append, decode, isHigh_first hle,
        isLow_second, pair_halves hle, ih h.tail]
      rfl

/-! ### Units -/

/-- The code point of two halves has them as its units. -/
theorem encodeOne_pair {u v : Nat} (hu : isHigh u = true) (hv : isLow v = true) :
    encodeOne (pair u v) = [u, v] := by
  simp only [isHigh, isLow, Bool.and_eq_true, decide_eq_true_eq] at hu hv
  have hval : (pair u v).val = 0x10000 + (u - 0xD800) * 0x400 + (v - 0xDC00) :=
    CodePoint.val_ofNat (by omega)
  have hfirst : 0xD800 + ((pair u v).val - 0x10000) / 0x400 = u := by omega
  have hsecond : 0xDC00 + ((pair u v).val - 0x10000) % 0x400 = v := by omega
  rw [encodeOne_of_le (by omega), hfirst, hsecond]

/-- A unit by itself is the only unit of its code point. -/
theorem encodeOne_ofNat {u : Nat} (h : u < 0x10000) : encodeOne (CodePoint.ofNat u) = [u] := by
  have hval : (CodePoint.ofNat u).val = u := CodePoint.val_ofNat (by omega)
  rw [encodeOne_of_lt (by omega), hval]

/-- Units are those of the text they spell. -/
theorem encode_decode {units : List Nat} (h : ∀ u ∈ units, u < 0x10000) :
    encode (decode units) = units := by
  fun_induction decode units with
  | case1 => rfl
  | case2 u => rw [encode_cons, encodeOne_ofNat (h u List.mem_cons_self)]; rfl
  | case3 u v rest hpair ih =>
    rw [Bool.and_eq_true] at hpair
    have hrest : ∀ w ∈ rest, w < 0x10000 := fun w hw =>
      h w (List.mem_cons_of_mem u (List.mem_cons_of_mem v hw))
    rw [encode_cons, encodeOne_pair hpair.1 hpair.2, ih hrest]
    rfl
  | case4 u v rest _ ih =>
    rw [encode_cons, encodeOne_ofNat (h u List.mem_cons_self),
      ih fun w hw => h w (List.mem_cons_of_mem u hw)]
    rfl

/-- No halves are left unjoined in the text that units spell. -/
theorem joined_decode {units : List Nat} (h : ∀ u ∈ units, u < 0x10000) :
    Joined (decode units) := by
  fun_induction decode units with
  | case1 => exact joined_nil
  | case2 u => exact List.isChain_singleton _
  | case3 u v rest hpair ih =>
    have hrest : ∀ w ∈ rest, w < 0x10000 := fun w hw =>
      h w (List.mem_cons_of_mem u (List.mem_cons_of_mem v hw))
    refine List.isChain_cons.mpr ⟨fun d _ hhalves => ?_, ih hrest⟩
    -- The first of the two takes two units, so it is no half itself.
    simp only [isHigh, isLow, Bool.and_eq_true, decide_eq_true_eq] at hpair
    have hval : (pair u v).val = 0x10000 + (u - 0xD800) * 0x400 + (v - 0xDC00) :=
      CodePoint.val_ofNat (by omega)
    have hhigh := hhalves.1
    simp only [CodePoint.isHighSurrogate, Bool.and_eq_true, decide_eq_true_eq] at hhigh
    omega
  | case4 u v rest hlone ih =>
    have hrest : ∀ w ∈ v :: rest, w < 0x10000 := fun w hw => h w (List.mem_cons_of_mem u hw)
    have hu := h u List.mem_cons_self
    refine List.isChain_cons.mpr ⟨fun d hd hhalves => hlone ?_, ih hrest⟩
    -- Behind a lone unit the text goes on with a low half only if the units do.
    obtain ⟨t, ht⟩ := List.head?_eq_some_iff.mp hd
    have hencode := encode_decode hrest
    rw [ht] at hencode
    have hval : (CodePoint.ofNat u).val = u := CodePoint.val_ofNat (by omega)
    obtain ⟨hhigh, hlow⟩ := hhalves
    rw [CodePoint.isHighSurrogate, hval] at hhigh
    rw [Bool.and_eq_true]
    exact ⟨hhigh, isLow_of_encode hencode hlow⟩

/-- Joining halves changes no unit. -/
theorem encode_joinPairs (t : Text) : encode (joinPairs t) = encode t :=
  encode_decode fun _ => encode_lt

/-- A text without surrogates has no unjoined halves. -/
theorem joined_of_isAscii {t : Text} (h : t.all CodePoint.isAscii = true) : Joined t := by
  induction t with
  | nil => exact joined_nil
  | cons c t ih =>
    rw [List.all_cons, Bool.and_eq_true] at h
    cases t with
    | nil => exact List.isChain_singleton c
    | cons d t =>
      refine List.isChain_cons_cons.mpr ⟨?_, ih h.2⟩
      rintro ⟨hhigh, -⟩
      have hc := h.1
      simp only [CodePoint.isHighSurrogate, CodePoint.isAscii, Bool.and_eq_true,
        decide_eq_true_eq] at hhigh hc
      omega

end Unproxy.Utf16
