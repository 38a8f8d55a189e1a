import Mathlib
import Unproxy.Proofs.Base64
import Unproxy.Proofs.Table.Failure
import Unproxy.Proofs.Table.RoundTrip

/-!
# Unproxy.Proofs.Table.Key

Which texts are keys, and the bytes they stand for. A key is a row of base64 characters and then
padding, some of which may be missing; white space may stand anywhere.

Main definitions:

* `Base64.bits`, `Base64.octets`, `Base64.standard`: the bytes that six-bit values stand for, by way
  of their bits;
* `Table.Blanked`: a text with white space put in.

Main statements:

* `Base64.decodeFrom_append`: a row of data characters, whatever follows them;
* `Base64.decode_append_pads`, `Base64.exists_of_decode`: exactly what is decoded, and to which
  bytes;
* `Table.keyBytes_eq_ok_iff`: the same of keys, whose padding is filled up first;
* `Table.keyBytes_of_blanked`: keys with white space and without padding.
-/

namespace Unproxy

open CodePoint (ofChar)

namespace Base64

/-! ### Bits -/

/-- The six bits of a value, the highest first. -/
def bits (value : Nat) : List Nat :=
  [value / 32 % 2, value / 16 % 2, value / 8 % 2, value / 4 % 2, value / 2 % 2, value % 2]

/-- Bits taken eight at a time; what is left over at the end is dropped. -/
def octets : List Nat → Bytes
  | a :: b :: c :: d :: e :: f :: g :: h :: rest =>
    UInt8.ofNat (Text.ofDigits 2 [a, b, c, d, e, f, g, h]) :: octets rest
  | _ => []

/-- The bytes that six-bit values stand for. -/
def standard (values : List Nat) : Bytes := octets (values.flatMap bits)

/-- The bits that a decoder has taken in and not written yet. -/
def State.pending (s : State) : List Nat :=
  match s.quad with
  | 0 => []
  | 1 => bits s.left
  | 2 => (bits s.left).drop 2
  | _ => (bits s.left).drop 4

/-- A decoder that has seen no padding and holds no more bits than its place leaves over. -/
structure State.Fits (s : State) : Prop where
  quad : s.quad < 4
  left : s.left < 64 / 4 ^ (s.quad - 1)
  pads : s.pads = 0
  padded : s.padded = false

theorem octets_pending {s : State} (h : s.quad < 4) : octets s.pending = [] := by
  obtain ⟨quad, left, pads, padded, written⟩ := s
  dsimp only at h
  interval_cases quad <;> rfl

theorem octets_cons (a b c d e f g h : Nat) (rest : List Nat) :
    octets (a :: b :: c :: d :: e :: f :: g :: h :: rest) =
      UInt8.ofNat (128 * a + 64 * b + 32 * c + 16 * d + 8 * e + 4 * f + 2 * g + h) ::
        octets rest := by
  have hdigits : Text.ofDigits 2 [a, b, c, d, e, f, g, h] =
      128 * a + 64 * b + 32 * c + 16 * d + 8 * e + 4 * f + 2 * g + h := by
    simp only [Text.ofDigits, List.foldl_cons, List.foldl_nil]
    omega
  rw [octets, hdigits]

/-- The low bits of a value are those of its remainder. -/
theorem drop_two_bits (value : Nat) : (bits (value % 16)).drop 2 = (bits value).drop 2 := by
  simp only [bits, List.drop_succ_cons, List.drop_zero, List.cons.injEq, and_true]
  omega

theorem drop_four_bits (value : Nat) : (bits (value % 4)).drop 4 = (bits value).drop 4 := by
  simp only [bits, List.drop_succ_cons, List.drop_zero, List.cons.injEq, and_true]
  omega

/-- A value that is taken in completes the byte begun by the bits before it, and the bits it leaves
over come next. -/
theorem octets_push {s : State} (h : s.Fits) {value : Nat} (hvalue : value < 64)
    (more : List Nat) :
    octets (s.pending ++ bits value ++ more) =
      (s.push value).1 ++ octets ((s.push value).2.pending ++ more) := by
  obtain ⟨quad, left, pads, padded, written⟩ := s
  obtain ⟨hquad, hleft, -, -⟩ := h
  dsimp only at hquad hleft
  interval_cases quad
  · rfl
  · have hbyte : left * 4 + value / 16 = 128 * (left / 32 % 2) + 64 * (left / 16 % 2) +
        32 * (left / 8 % 2) + 16 * (left / 4 % 2) + 8 * (left / 2 % 2) + 4 * (left % 2) +
        2 * (value / 32 % 2) + value / 16 % 2 := by omega
    simp only [State.push, State.pending, drop_two_bits]
    rw [hbyte, bits, bits]
    exact octets_cons ..
  · have hbyte : left * 16 + value / 4 = 128 * (left / 8 % 2) + 64 * (left / 4 % 2) +
        32 * (left / 2 % 2) + 16 * (left % 2) + 8 * (value / 32 % 2) + 4 * (value / 16 % 2) +
        2 * (value / 8 % 2) + value / 4 % 2 := by omega
    simp only [State.push, State.pending, drop_four_bits]
    rw [hbyte, bits, bits]
    exact octets_cons ..
  · have hbyte : left * 64 + value = 128 * (left / 2 % 2) + 64 * (left % 2) +
        32 * (value / 32 % 2) + 16 * (value / 16 % 2) + 8 * (value / 8 % 2) +
        4 * (value / 4 % 2) + 2 * (value / 2 % 2) + value % 2 := by omega
    simp only [State.push, State.pending]
    rw [hbyte, bits, bits]
    exact octets_cons ..

theorem quad_push {s : State} (h : s.Fits) (value : Nat) :
    (s.push value).2.quad = (s.quad + 1) % 4 := by
  have hquad := h.quad
  obtain ⟨quad, left, pads, padded, written⟩ := s
  dsimp only at hquad
  interval_cases quad <;> simp [State.push]

theorem fits_push {s : State} (h : s.Fits) {value : Nat} (hvalue : value < 64) :
    (s.push value).2.Fits := by
  obtain ⟨quad, left, pads, padded, written⟩ := s
  obtain ⟨hquad, hleft, -, hpadded⟩ := h
  dsimp only at hquad hpadded
  subst hpadded
  interval_cases quad <;> constructor <;> simp [State.push] <;> omega

/-! ### Data characters -/

/-- Whether a character stands for six bits. -/
def isData (c : CodePoint) : Bool := (digit? c).isSome

theorem digit?_lt {c : CodePoint} {value : Nat} (h : digit? c = some value) : value < 64 := by
  unfold digit? at h
  simp only [CodePoint.isUpper, CodePoint.isLower, CodePoint.isDigit, Bool.and_eq_true,
    decide_eq_true_eq] at h
  split at h
  · cases h
    omega
  split at h
  · cases h
    omega
  split at h
  · cases h
    omega
  split at h
  · cases h
    decide
  split at h
  · cases h
    decide
  · cases h

theorem isData_pad : isData (ofChar '=') = false := by decide

theorem ne_pad_of_isData {c : CodePoint} (h : isData c = true) : c ≠ ofChar '=' := by
  rintro rfl
  rw [isData_pad] at h
  cases h

/-- A row of data characters is taken in whatever follows it: the bytes that the row completes come
first, and the decoder goes on with its place moved by the length of the row. -/
theorem decodeFrom_append {data : Text} (hdata : ∀ c ∈ data, isData c = true) {s : State}
    (hs : s.Fits) :
    ∃ s' : State, s'.Fits ∧ s'.quad = (s.quad + data.length) % 4 ∧
      ∀ rest, decodeFrom s (data ++ rest) = (decodeFrom s' rest).map
        (octets (s.pending ++ (data.filterMap digit?).flatMap bits) ++ ·) := by
  induction data generalizing s with
  | nil =>
    refine ⟨s, hs, (Nat.mod_eq_of_lt hs.quad).symm, fun rest => ?_⟩
    have hnone : octets (s.pending ++ ([].filterMap digit?).flatMap bits) = [] := by
      simpa using octets_pending hs.quad
    rw [hnone, List.nil_append]
    cases decodeFrom s rest <;> rfl
  | cons c data ih =>
    obtain ⟨hc, hothers⟩ := List.forall_mem_cons.mp hdata
    obtain ⟨value, hvalue⟩ := Option.isSome_iff_exists.mp hc
    have hlt := digit?_lt hvalue
    obtain ⟨s', hs', hquad, hrest⟩ := ih hothers (fits_push hs hlt)
    refine ⟨s', hs', ?_, fun rest => ?_⟩
    · rw [hquad, quad_push hs, List.length_cons]
      omega
    · have hstep : decodeFrom s (c :: (data ++ rest)) =
          (decodeFrom (s.push value).2 (data ++ rest)).map ((s.push value).1 ++ ·) := by
        rw [decodeFrom, if_neg (ne_pad_of_isData hc), hvalue]
        simp only [hs.padded, Bool.false_eq_true, if_false]
      rw [List.cons_append, hstep, hrest, List.filterMap_cons_some hvalue, List.flatMap_cons,
        ← List.append_assoc, octets_push hs hlt]
      cases decodeFrom s' rest with
      | error e => rfl
      | ok bytes => simp only [Except.map, List.append_assoc]

/-! ### Padding -/

/-- Whether padding of a length closes a group of four of which some places are taken. A group is
not begun by one data character alone, and where none is begun any padding will do. -/
def closes (quad count : Nat) : Prop := quad = 0 ∨ 2 ≤ quad ∧ quad + count = 4

/-- Padding by itself closes what a decoder has begun exactly if it fills the group, together with
the padding seen before. -/
theorem decodeFrom_pads {s : State} (hplace : s.quad < 2 ∨ s.quad + s.pads < 4) (count : Nat) :
    decodeFrom s (List.replicate count (ofChar '=')) = .ok [] ↔
      closes s.quad (s.pads + count) := by
  unfold closes
  induction count generalizing s with
  | zero =>
    rw [List.replicate_zero, decodeFrom]
    split
    · simp_all
    · split <;> simp <;> omega
  | succ count ih =>
    rw [List.replicate_succ, decodeFrom, if_pos rfl]
    by_cases hfull : (decide (2 ≤ s.quad) && decide (4 ≤ s.quad + s.pads + 1)) = true
    · rw [if_pos hfull]
      rw [Bool.and_eq_true, decide_eq_true_eq, decide_eq_true_eq] at hfull
      cases count with
      | zero => simp; omega
      | succ count => simp [List.replicate_succ]; omega
    · rw [if_neg hfull]
      rw [Bool.and_eq_true, decide_eq_true_eq, decide_eq_true_eq] at hfull
      rw [ih (by dsimp only; split <;> omega)]
      dsimp only
      split <;> omega

theorem decodeFrom_replicate {s : State} (hs : s.Fits) (count : Nat) :
    decodeFrom s (List.replicate count (ofChar '=')) = .ok [] ↔ closes s.quad count := by
  have hquad := hs.quad
  have hpads := hs.pads
  rw [decodeFrom_pads (by omega), hpads, Nat.zero_add]

/-- Behind padding there is nothing but padding. -/
theorem eq_replicate_of_padded {s : State} (hs : s.padded = true) {t : Text} {bytes : Bytes}
    (h : decodeFrom s t = .ok bytes) :
    bytes = [] ∧ ∃ count, t = List.replicate count (ofChar '=') := by
  induction t generalizing s with
  | nil =>
    rw [decodeFrom] at h
    split at h
    · cases h
      exact ⟨rfl, 0, rfl⟩
    · split at h <;> cases h
  | cons c rest ih =>
    rw [decodeFrom] at h
    by_cases hc : c = ofChar '='
    · rw [if_pos hc] at h
      subst hc
      split at h
      · split at h
        · rename_i hempty
          cases h
          rw [List.isEmpty_iff] at hempty
          exact ⟨rfl, 1, by rw [hempty]; rfl⟩
        · cases h
      · obtain ⟨hbytes, count, hrest⟩ := ih rfl h
        exact ⟨hbytes, count + 1, by rw [hrest, List.replicate_succ]⟩
    · rw [if_neg hc] at h
      split at h
      · cases h
      · rw [hs, if_pos rfl] at h
        cases h

/-- What does not begin with data is decoded only if it is padding. -/
theorem eq_replicate_of_decodeFrom {s : State} {t : Text} {bytes : Bytes}
    (hhead : ∀ c ∈ t.head?, isData c = false) (h : decodeFrom s t = .ok bytes) :
    bytes = [] ∧ ∃ count, t = List.replicate count (ofChar '=') := by
  cases t with
  | nil =>
    exact eq_replicate_of_padded (s := { s with padded := true }) rfl
      (by simpa [decodeFrom] using h)
  | cons c rest =>
    have hc : c = ofChar '=' := by
      by_contra hc
      rw [decodeFrom, if_neg hc] at h
      have hnone : digit? c = none := by simpa [isData] using hhead c rfl
      rw [hnone] at h
      cases h
    -- A sign of padding counts the same whether or not another came before it.
    refine eq_replicate_of_padded (s := { s with padded := true }) rfl ?_
    rw [← h, decodeFrom, decodeFrom, if_pos hc, if_pos hc]

/-! ### Data and padding -/

section

variable {data : Text} (isData : ∀ c ∈ data, isData c = true)

include isData

/-- Data in front of anything, from the start. -/
theorem decodeFrom_start :
    ∃ s : State, s.Fits ∧ s.quad = data.length % 4 ∧
      ∀ rest, decodeFrom ⟨0, 0, 0, false, 0⟩ (data ++ rest) =
        (decodeFrom s rest).map (standard (data.filterMap digit?) ++ ·) := by
  obtain ⟨s, hs, hquad, hrest⟩ :=
    decodeFrom_append isData (s := ⟨0, 0, 0, false, 0⟩) ⟨by decide, by decide, rfl, rfl⟩
  exact ⟨s, hs, by rw [hquad, Nat.zero_add], hrest⟩

theorem all_isAscii_of_isData (count : Nat) :
    (data ++ List.replicate count (ofChar '=')).all CodePoint.isAscii = true := by
  rw [List.all_append, Bool.and_eq_true, List.all_eq_true, List.all_eq_true]
  constructor
  · intro c hc
    refine isAscii_of_isSymbol ?_
    rw [isSymbol, Bool.or_eq_true]
    exact .inl (isData c hc)
  · intro c hc
    rw [(List.mem_replicate.mp hc).2]
    decide

/-- Data and the padding that it asks for are decoded. -/
theorem decode_append_pads {count : Nat} (hcloses : closes (data.length % 4) count)
    (hempty : data = [] → count = 0) :
    decode (data ++ List.replicate count (ofChar '=')) =
      .ok (standard (data.filterMap digit?)) := by
  have hhead : (data ++ List.replicate count (ofChar '=')).head? ≠
      some (ofChar '=') := by
    cases data with
    | nil =>
      rw [hempty rfl]
      simp
    | cons c data =>
      rw [List.cons_append, List.head?_cons, ne_eq, Option.some.injEq]
      exact ne_pad_of_isData (isData c List.mem_cons_self)
  obtain ⟨s, hs, hquad, hrest⟩ := decodeFrom_start isData
  have hpadding := (decodeFrom_replicate hs count).mpr (by rwa [hquad])
  rw [decode, all_isAscii_of_isData isData, if_neg hhead]
  simp only [Bool.not_true, Bool.false_eq_true, if_false]
  rw [hrest, hpadding, Except.map, List.append_nil]

/-- A text that with padding behind it is data with padding is so by itself. -/
theorem exists_of_append_pads {stem : Text} {added count : Nat}
    (h : stem ++ List.replicate added (ofChar '=') =
      data ++ List.replicate count (ofChar '=')) :
    ∃ kept, stem = data ++ List.replicate kept (ofChar '=') ∧ kept + added = count := by
  rcases List.append_eq_append_iff.mp h with ⟨more, hdata, hadded⟩ | ⟨more, hstem, hcount⟩
  · -- What would be data behind the text is padding, so there is nothing of it.
    have hnil : more = [] := by
      rw [List.eq_nil_iff_forall_not_mem]
      intro c hc
      have hpad := List.mem_replicate.mp (hadded ▸ List.mem_append_left _ hc)
      exact ne_pad_of_isData (isData c (hdata ▸ List.mem_append_right _ hc)) hpad.2
    subst hnil
    refine ⟨0, by rw [hdata]; simp, ?_⟩
    have hlength := congrArg List.length hadded
    simp only [List.length_replicate, List.nil_append] at hlength
    omega
  · obtain ⟨hlength, hmore, -⟩ := List.append_eq_replicate_iff.mp hcount.symm
    refine ⟨more.length, by rw [← hmore]; exact hstem, ?_⟩
    simpa using hlength

end

/-- What is decoded is data and the padding that it asks for. -/
theorem exists_of_decode {t : Text} {bytes : Bytes} (h : decode t = .ok bytes) :
    ∃ data count, t = data ++ List.replicate count (ofChar '=') ∧
      (∀ c ∈ data, isData c = true) ∧ closes (data.length % 4) count ∧ (data = [] → count = 0) ∧
      bytes = standard (data.filterMap digit?) := by
  unfold decode at h
  split at h
  · cases h
  split at h
  · cases h
  rename_i hhead
  have hsplit := List.takeWhile_append_dropWhile (p := isData) (l := t)
  have hdata : ∀ c ∈ t.takeWhile isData, isData c = true := fun c hc => List.mem_takeWhile_imp hc
  have hnot : ∀ c ∈ (t.dropWhile isData).head?, isData c = false := by
    intro c hc
    have hnot := List.head?_dropWhile_not isData t
    rw [Option.mem_def.mp hc] at hnot
    simpa using hnot
  obtain ⟨s, hs, hquad, hrest⟩ := decodeFrom_start hdata
  rw [← hsplit, hrest] at h
  cases hlast : decodeFrom s (t.dropWhile isData) with
  | error e =>
    rw [hlast] at h
    cases h
  | ok last =>
    obtain ⟨rfl, count, hcount⟩ := eq_replicate_of_decodeFrom hnot hlast
    rw [hlast, Except.map, List.append_nil, Except.ok.injEq] at h
    rw [hcount] at hlast hsplit
    have hcloses := (decodeFrom_replicate hs count).mp hlast
    rw [hquad] at hcloses
    refine ⟨t.takeWhile isData, count, hsplit.symm, hdata, hcloses, fun hempty => ?_, h.symm⟩
    rw [hempty, List.nil_append] at hsplit
    cases count with
    | zero => rfl
    | succ count =>
      rw [← hsplit, List.replicate_succ] at hhead
      exact absurd rfl hhead

end Base64

namespace Table

open Base64

/-! ### Keys -/

/-- Whether padding of a length may follow data of a length in a key, where padding at the end may
be missing. -/
def mayFollow (length count : Nat) : Prop :=
  length % 4 = 0 ∧ count % 4 ≠ 1 ∧ (length = 0 → count = 0) ∨
    2 ≤ length % 4 ∧ length % 4 + count ≤ 4

/-- Which texts are keys, and their bytes. -/
theorem keyBytes_eq_ok_iff {key : Text} {bytes : Bytes} :
    keyBytes key = .ok bytes ↔ ∃ data count,
      (key.filter fun c => !isKeyBlank c) =
        data ++ List.replicate count (ofChar '=') ∧
      (∀ c ∈ data, isData c = true) ∧ mayFollow data.length count ∧
      bytes = standard (data.filterMap digit?) := by
  have hlength : ∀ (data : Text) (count : Nat),
      (data ++ List.replicate count (ofChar '=')).length = data.length + count := by
    intro data count
    rw [List.length_append, List.length_replicate]
  unfold keyBytes
  dsimp only
  constructor
  · intro h
    split at h
    · cases h
    rename_i hloose
    split at h
    · rename_i decoded hdecode
      cases h
      obtain ⟨data, count, heq, hdata, hcloses, hempty, hbytes⟩ := exists_of_decode hdecode
      obtain ⟨kept, hkept, hcount⟩ := exists_of_append_pads hdata heq
      refine ⟨data, kept, hkept, hdata, ?_, hbytes⟩
      rw [hkept, hlength] at hloose hcount
      have hnone : data.length = 0 → count = 0 := fun hzero =>
        hempty (List.eq_nil_of_length_eq_zero hzero)
      unfold closes at hcloses
      unfold mayFollow
      omega
    · cases h
  · rintro ⟨data, count, hclean, hdata, hfollow, rfl⟩
    unfold mayFollow at hfollow
    rw [hclean, hlength, if_neg (by omega), padding, List.append_assoc,
      List.replicate_append_replicate, decode_append_pads hdata]
    · unfold closes
      omega
    · rintro rfl
      rw [List.length_nil] at hfollow ⊢
      omega

/-- The white space of a key: tab, line feed, form feed, carriage return and space. -/
def keyBlanks : List Nat := [0x09, 0x0A, 0x0C, 0x0D, 0x20]

/-- A text with white space put in anywhere. -/
inductive Blanked : Text → Text → Prop
  | nil : Blanked [] []
  | keep (c : CodePoint) {stem key : Text} : Blanked stem key → Blanked (c :: stem) (c :: key)
  | blank {c : CodePoint} (mem : c.val ∈ keyBlanks) {stem key : Text} :
      Blanked stem key → Blanked stem (c :: key)

theorem isKeyBlank_iff {c : CodePoint} : isKeyBlank c = true ↔ c.val ∈ keyBlanks := by
  simp [isKeyBlank, keyBlanks, or_assoc]

theorem blanked_filter (key : Text) : Blanked (key.filter fun c => !isKeyBlank c) key := by
  induction key with
  | nil => exact .nil
  | cons c key ih =>
    rw [List.filter_cons]
    cases hblank : isKeyBlank c with
    | false => exact .keep c ih
    | true => exact .blank (isKeyBlank_iff.mp hblank) ih

theorem filter_of_blanked {stem key : Text} (hstem : ∀ c ∈ stem, isSymbol c = true)
    (h : Blanked stem key) : (key.filter fun c => !isKeyBlank c) = stem := by
  induction h with
  | nil => rfl
  | keep c _ ih =>
    obtain ⟨hc, hothers⟩ := List.forall_mem_cons.mp hstem
    rw [List.filter_cons_of_pos (by rw [isKeyBlank_of_isSymbol hc]; rfl), ih hothers]
  | @blank c mem _ _ _ ih =>
    rw [List.filter_cons_of_neg (by rw [isKeyBlank_iff.mpr mem]; decide), ih hstem]

/-- White space does not count among the data. -/
theorem filterMap_digit?_filter (key : Text) :
    (key.filter fun c => !isKeyBlank c).filterMap digit? = key.filterMap digit? := by
  rw [List.filterMap_filter]
  refine List.filterMap_congr fun c _ => ?_
  cases hblank : isKeyBlank c with
  | false => rfl
  | true =>
    have hsymbol : isSymbol c = false := by
      by_contra hsymbol
      rw [isKeyBlank_of_isSymbol (Bool.not_eq_false _ ▸ hsymbol)] at hblank
      cases hblank
    rw [isSymbol, Bool.or_eq_false_iff, Option.isSome_eq_false_iff, Option.isNone_iff_eq_none]
      at hsymbol
    exact hsymbol.1.symm

/-- What stands for the bytes of a key is its data, in order. -/
theorem eq_standard_of_keyBytes {key : Text} {bytes : Bytes} (h : keyBytes key = .ok bytes) :
    bytes = standard (key.filterMap digit?) := by
  obtain ⟨data, count, hclean, -, -, rfl⟩ := keyBytes_eq_ok_iff.mp h
  have hpads : (List.replicate count (ofChar '=')).filterMap digit? = [] := by
    rw [List.filterMap_replicate_of_none (by decide)]
  rw [← filterMap_digit?_filter key, hclean, List.filterMap_append, hpads, List.append_nil]

theorem length_sextets_mod (bytes : Bytes) : (sextets bytes).length % 4 ≠ 1 := by
  induction bytes using sextets.induct with
  | case1 | case2 a | case3 a b => simp [sextets]
  | case4 a b c rest ih =>
    simp only [sextets, List.length_cons]
    omega

/-- What is written for bytes is a key for them, also without some or all of its padding and with
white space in it. -/
theorem keyBytes_of_blanked {bytes : Bytes} {stem key : Text} {count : Nat}
    (hstem : Base64.encode bytes = stem ++ List.replicate count (ofChar '='))
    (hkey : Blanked stem key) : keyBytes key = .ok bytes := by
  have hsymbols := List.all_eq_true.mp (all_isSymbol_encode bytes)
  rw [hstem] at hsymbols
  have hclean := filter_of_blanked (fun c hc => hsymbols c (List.mem_append_left _ hc)) hkey
  have hdata : ∀ c ∈ (sextets bytes).map symbol, isData c = true := by
    intro c hc
    obtain ⟨value, hvalue, rfl⟩ := List.mem_map.mp hc
    rw [isData, digit?_symbol (sextets_lt bytes value hvalue)]
    rfl
  obtain ⟨kept, hkept, hcount⟩ := exists_of_append_pads hdata hstem.symm
  have hlength : ((sextets bytes).map symbol).length = (sextets bytes).length := List.length_map _
  have hmod := length_sextets_mod bytes
  have hfollow : mayFollow ((sextets bytes).map symbol).length kept := by
    unfold mayFollow
    omega
  -- With all of its padding the text decodes, so the data by itself stands for the bytes.
  have hdecode : Base64.decode (Base64.encode bytes) =
      .ok (standard (((sextets bytes).map symbol).filterMap digit?)) := by
    refine decode_append_pads hdata ?_ fun hempty => ?_
    · unfold closes
      omega
    · rw [List.map_eq_nil_iff.mp hempty]
      rfl
  rw [Base64.decode_encode, Except.ok.injEq] at hdecode
  exact keyBytes_eq_ok_iff.mpr ⟨_, kept, hclean.trans hkept, hdata, hfollow, hdecode⟩

/-- Keys are read with forgiveness. What is written for bytes stands for them, also without some or
all of its padding and with white space anywhere in it. Any other text either stands for the bytes
of its data characters, in order and without the bits left over, or is reported. -/
theorem keyBytes_forgiving :
    (∀ (bytes : Bytes) (stem key : Text) (count : Nat),
      Base64.encode bytes = stem ++ List.replicate count (ofChar '=') → Blanked stem key →
        keyBytes key = .ok bytes) ∧
      ∀ key : Text,
        (∀ bytes, keyBytes key = .ok bytes → bytes = standard (key.filterMap digit?)) ∧
          ∀ e, keyBytes key = .error e → e.isReported = true :=
  ⟨fun _ _ _ _ => keyBytes_of_blanked,
    fun _ => ⟨fun _ => eq_standard_of_keyBytes, fun _ => isReported_of_keyBytes⟩⟩

/-- A key without one of its two signs of padding and with white space of all sorts in it, one with
bits left over, and one whose padding stands before its end. -/
theorem keyBytes_forgiving_sample :
    let key := " a2\n V5I\x0c\tQ=\r".toText
    Base64.encode [0x6B, 0x65, 0x79, 0x21] =
        "a2V5IQ=".toText ++ List.replicate 1 (ofChar '=') ∧
      Blanked "a2V5IQ=".toText key ∧ keyBytes key = .ok [0x6B, 0x65, 0x79, 0x21] ∧
      keyBytes "Q\tV".toText = .ok [0x41] ∧
      standard ("Q\tV".toText.filterMap digit?) = [0x41] ∧
      ∃ e, keyBytes "Q=VV".toText = .error e ∧ e.isReported = true := by
  intro key
  obtain ⟨hwritten, hall⟩ := keyBytes_forgiving
  have hencode : Base64.encode [0x6B, 0x65, 0x79, 0x21] =
      "a2V5IQ=".toText ++ List.replicate 1 (ofChar '=') := by decide +kernel
  have hclean : (key.filter fun c => !isKeyBlank c) = "a2V5IQ=".toText := by decide +kernel
  have hblanked : Blanked "a2V5IQ=".toText key := hclean ▸ blanked_filter key
  have hloose : keyBytes "Q\tV".toText = .ok [0x41] := rfl
  have hbroken : keyBytes "Q=VV".toText =
      .error (.badKey "Q=VV".toText .interruptedPadding) := rfl
  exact ⟨hencode, hblanked, hwritten _ _ _ _ hencode hblanked, hloose,
    ((hall _).1 _ hloose).symm, _, hbroken, (hall _).2 _ hbroken⟩

end Table

end Unproxy
