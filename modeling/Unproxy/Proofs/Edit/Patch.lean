import Mathlib
import Unproxy.Edit
import Unproxy.Proofs.Text.Utf8

/-!
# Unproxy.Proofs.Edit.Patch

Edits applied one after the other from the back are edits applied all at once.

Main definitions:

* `Edit.Spaced`: edits in source order, none overlapping the next;
* `Edit.Placed`: such edits, none of them empty;
* `Edit.patch`: the bytes with all edits applied at once, every byte outside of them
  kept in its place.

Main statements:

* `Edit.applyInOrder_ordered`: applying edits is `patch`, in whatever order they are
  given;
* `Edit.exists_applyAll`: edits of an encodable text at boundaries give a text;
* `Edit.applyAll_of_apart`: so do edits of which it is only known that they start at
  different places and do not overlap.
-/

namespace Unproxy.Edit

/-! ### Edits side by side -/

/-- Edits in source order between two places, none of which reaches into the next. An edit
may replace nothing and only put its text in. -/
def Spaced (low high : Nat) : List Edit → Prop
  | [] => low ≤ high
  | edit :: edits => low ≤ edit.start ∧ edit.start ≤ edit.stop ∧ Spaced edit.stop high edits

/-- Edits in source order between two places. Each replaces at least one byte, and
none reaches into the next. -/
def Placed (low high : Nat) : List Edit → Prop
  | [] => low ≤ high
  | edit :: edits => low ≤ edit.start ∧ edit.start < edit.stop ∧ Placed edit.stop high edits

theorem Spaced.le {low high : Nat} {edits : List Edit} (h : Spaced low high edits) :
    low ≤ high := by
  induction edits generalizing low with
  | nil => exact h
  | cons edit edits ih =>
    obtain ⟨hlow, hle, hrest⟩ := h
    have := ih hrest
    omega

/-- Each of the edits lies between the two places. -/
theorem Spaced.of_mem {low high : Nat} {edits : List Edit} (h : Spaced low high edits) {edit : Edit}
    (hedit : edit ∈ edits) : low ≤ edit.start ∧ edit.start ≤ edit.stop ∧ edit.stop ≤ high := by
  induction edits generalizing low with
  | nil => cases hedit
  | cons first edits ih =>
    obtain ⟨hlow, hle, hrest⟩ := h
    rcases List.mem_cons.mp hedit with rfl | hedit
    · exact ⟨hlow, hle, hrest.le⟩
    · have hinside := ih hrest hedit
      omega

/-- Edits that start one behind the other and do not overlap lie side by side. -/
theorem spaced_of_apart {low high : Nat} {edits : List Edit} (hle : low ≤ high)
    (hstarts : edits.Pairwise fun a b => a.start < b.start)
    (hapart : edits.Pairwise fun a b => a.stop ≤ b.start ∨ b.stop ≤ a.start)
    (hinside : ∀ edit ∈ edits, low ≤ edit.start ∧ edit.start ≤ edit.stop ∧ edit.stop ≤ high) :
    Spaced low high edits := by
  induction edits generalizing low with
  | nil => exact hle
  | cons edit edits ih =>
    obtain ⟨hfirst, hothers⟩ := List.forall_mem_cons.mp hinside
    obtain ⟨hbehind, hstarts⟩ := List.pairwise_cons.mp hstarts
    obtain ⟨hclear, hapart⟩ := List.pairwise_cons.mp hapart
    refine ⟨hfirst.1, hfirst.2.1, ih hfirst.2.2 hstarts hapart fun other hother => ?_⟩
    -- An edit that starts further on cannot end before this one starts.
    have hrange := hothers other hother
    have hstart := hbehind other hother
    have hdisjoint := hclear other hother
    omega

theorem Placed.spaced {low high : Nat} {edits : List Edit} (h : Placed low high edits) :
    Spaced low high edits := by
  induction edits generalizing low with
  | nil => exact h
  | cons edit edits ih => exact ⟨h.1, Nat.le_of_lt h.2.1, ih h.2.2⟩

/-- The places around edits may lie further out. -/
theorem Placed.mono {low low' high high' : Nat} {edits : List Edit} (h : Placed low high edits)
    (hlow : low' ≤ low) (hhigh : high ≤ high') : Placed low' high' edits := by
  induction edits generalizing low low' with
  | nil => exact Nat.le_trans hlow (Nat.le_trans h hhigh)
  | cons edit edits ih => exact ⟨Nat.le_trans hlow h.1, h.2.1, ih h.2.2 (Nat.le_refl _)⟩

theorem Placed.append {low middle high : Nat} {edits others : List Edit}
    (h : Placed low middle edits) (hothers : Placed middle high others) :
    Placed low high (edits ++ others) := by
  induction edits generalizing low with
  | nil => exact hothers.mono h (Nat.le_refl _)
  | cons edit edits ih => exact ⟨h.1, h.2.1, ih h.2.2⟩

/-- Each of the edits lies between the two places, and none is empty. -/
theorem Placed.of_mem {low high : Nat} {edits : List Edit} (h : Placed low high edits) {edit : Edit}
    (hedit : edit ∈ edits) : low ≤ edit.start ∧ edit.start < edit.stop ∧ edit.stop ≤ high := by
  induction edits generalizing low with
  | nil => cases hedit
  | cons first edits ih =>
    obtain ⟨hlow, hlt, hrest⟩ := h
    rcases List.mem_cons.mp hedit with rfl | hedit
    · exact ⟨hlow, hlt, hrest.spaced.le⟩
    · have hinside := ih hrest hedit
      omega

/-- Edits side by side do not overlap. -/
theorem Placed.apart {low high : Nat} {edits : List Edit} (h : Placed low high edits) :
    edits.Pairwise fun a b => a.stop ≤ b.start := by
  induction edits generalizing low with
  | nil => exact List.Pairwise.nil
  | cons first edits ih =>
    exact List.Pairwise.cons (fun edit hedit => (h.2.2.of_mem hedit).1) (ih h.2.2)

/-- Edits side by side have increasing starts. -/
theorem Placed.pairwise {low high : Nat} {edits : List Edit} (h : Placed low high edits) :
    edits.Pairwise fun a b => a.start < b.start :=
  h.apart.imp_of_mem fun ha _ hle => Nat.lt_of_lt_of_le (h.of_mem ha).2.1 hle

theorem pairwise_ordered (edits : List Edit) :
    (ordered edits).Pairwise fun a b => b.start ≤ a.start := by
  have hordered : (ordered edits).Pairwise fun a b => decide (b.start ≤ a.start) = true := by
    refine List.pairwise_mergeSort ?_ ?_ edits
    · intro a b c hab hbc
      simp only [decide_eq_true_eq] at hab hbc ⊢
      omega
    · intro a b
      simp only [Bool.or_eq_true, decide_eq_true_eq]
      omega
  exact hordered.imp of_decide_eq_true

/-- Whatever the order edits are given in, they are applied from the last one in the
source to the first. -/
theorem ordered_of_perm {edits sorted : List Edit}
    (h : sorted.Pairwise fun a b => a.start < b.start) (hperm : edits.Perm sorted) :
    ordered edits = sorted.reverse := by
  have hreverse : sorted.reverse.Pairwise fun a b => b.start ≤ a.start := by
    rw [List.pairwise_reverse]
    exact h.imp Nat.le_of_lt
  have hsame : (ordered edits).Perm sorted.reverse :=
    (List.mergeSort_perm _ _).trans (hperm.trans (List.reverse_perm sorted).symm)
  have hnodup : (sorted.map Edit.start).Nodup := List.pairwise_map.mpr (h.imp Nat.ne_of_lt)
  refine hsame.eq_of_pairwise (fun a b ha hb hab hba => ?_) (pairwise_ordered edits) hreverse
  exact List.inj_on_of_nodup_map hnodup (List.mem_reverse.mp (hsame.mem_iff.mp ha))
    (List.mem_reverse.mp hb) (Nat.le_antisymm hba hab)

/-- Edits that start at different places can be put in source order. -/
theorem exists_sorted {edits : List Edit} (h : edits.Pairwise fun a b => a.start ≠ b.start) :
    ∃ sorted : List Edit, sorted.Perm edits ∧ sorted.Pairwise fun a b => a.start < b.start := by
  have hperm : (ordered edits).reverse.Perm edits :=
    (List.reverse_perm _).trans (List.mergeSort_perm _ _)
  have hle : (ordered edits).reverse.Pairwise fun a b => a.start ≤ b.start := by
    rw [List.pairwise_reverse]
    exact pairwise_ordered edits
  have hne := (hperm.pairwise_iff fun hab => Ne.symm hab).mpr h
  exact ⟨_, hperm, (hle.and hne).imp fun hab => Nat.lt_of_le_of_ne hab.1 hab.2⟩

/-! ### All at once -/

/-- The bytes from a place on with edits in source order applied all at once. Every
edit means places in the bytes as they were. -/
def patch (place : Nat) (bytes : Bytes) : List Edit → Bytes
  | [] => bytes
  | edit :: edits =>
    bytes.take (edit.start - place) ++
      (Utf8.encode edit.replacement ++ patch edit.stop (bytes.drop (edit.stop - place)) edits)

theorem clamp_natCast {length i : Nat} (h : i ≤ length) : clamp length i = i := by
  rw [clamp, if_neg (by omega), Int.toNat_natCast, Nat.min_eq_left h]

/-- A stretch inside the bytes is cut out and the text put in. -/
theorem splice_natCast {bytes : Bytes} {start stop : Nat} (text : Bytes) (h : start ≤ stop)
    (hstop : stop ≤ bytes.length) :
    splice bytes start stop text = bytes.take start ++ text ++ bytes.drop stop := by
  simp only [splice, clamp_natCast hstop, clamp_natCast (Nat.le_trans h hstop),
    Nat.max_eq_right h]

theorem applyInOrder_append (offset : Nat) (edits others : List Edit) (bytes : Bytes) :
    applyInOrder offset (edits ++ others) bytes =
      (applyInOrder offset edits bytes).bind (applyInOrder offset others) := by
  induction edits generalizing bytes with
  | nil => rfl
  | cons edit edits ih =>
    rw [List.cons_append, applyInOrder, applyInOrder]
    split
    · rfl
    · exact ih _

/-- Applied from the back, edits behind a place leave what is before it. -/
theorem applyInOrder_reverse {offset low : Nat} {bytes : Bytes} {edits : List Edit}
    (hlow : offset ≤ low) (h : Spaced low (offset + bytes.length) edits)
    (hencodable : ∀ edit ∈ edits, Utf8.Encodable edit.replacement) :
    applyInOrder offset edits.reverse bytes =
      .ok (bytes.take (low - offset) ++ patch low (bytes.drop (low - offset)) edits) := by
  induction edits generalizing low with
  | nil => rw [patch, List.take_append_drop]; rfl
  | cons edit edits ih =>
    obtain ⟨hstart, hlt, hrest⟩ := h
    have hle := hrest.le
    have hfirst := Utf8.checkEncodable_eq_ok_iff.mpr (hencodable edit List.mem_cons_self)
    have hothers := ih (by omega) hrest fun e he => hencodable e (List.mem_cons_of_mem edit he)
    have hstarts : ((edit.start : Int) - offset) = ((edit.start - offset : Nat) : Int) := by omega
    have hstops : ((edit.stop : Int) - offset) = ((edit.stop - offset : Nat) : Int) := by omega
    have hlength : (bytes.take (edit.stop - offset)).length = edit.stop - offset := by
      rw [List.length_take]
      omega
    rw [List.reverse_cons, applyInOrder_append, hothers]
    simp only [Except.bind, applyInOrder, hfirst, hstarts, hstops]
    rw [splice_natCast _ (by omega) (by rw [List.length_append, hlength]; omega),
      List.take_append_of_le_length (by rw [hlength]; omega), List.take_take,
      List.drop_append_of_le_length (by rw [hlength]), List.drop_take_self, List.nil_append,
      Nat.min_eq_left (by omega), patch, List.drop_drop,
      show low - offset + (edit.stop - low) = edit.stop - offset by omega,
      show edit.start - offset = low - offset + (edit.start - low) by omega, List.take_add]
    simp only [List.append_assoc]

/-- Edits side by side, given in whatever order, are applied all at once. -/
theorem applyInOrder_ordered {offset : Nat} {bytes : Bytes} {edits sorted : List Edit}
    (h : Spaced offset (offset + bytes.length) sorted)
    (hstarts : sorted.Pairwise fun a b => a.start < b.start) (hperm : edits.Perm sorted)
    (hencodable : ∀ edit ∈ sorted, Utf8.Encodable edit.replacement) :
    applyInOrder offset (ordered edits) bytes = .ok (patch offset bytes sorted) := by
  rw [ordered_of_perm hstarts hperm, applyInOrder_reverse (Nat.le_refl offset) h hencodable,
    Nat.sub_self]
  rfl

/-! ### Texts -/

/-- Edits at the boundaries of an encodable text lead to such a text again. -/
theorem exists_text_patch {place : Nat} {t : Text} {edits : List Edit}
    (h : Spaced place (place + (Utf8.encode t).length) edits)
    (ht : Utf8.Encodable t)
    (hencodable : ∀ edit ∈ edits, Utf8.Encodable edit.replacement)
    (hboundary : ∀ edit ∈ edits, Utf8.isBoundary t (edit.start - place) = true ∧
      Utf8.isBoundary t (edit.stop - place) = true) :
    ∃ t', patch place (Utf8.encode t) edits = Utf8.encode t' ∧ Utf8.Encodable t' := by
  induction edits generalizing place t with
  | nil => exact ⟨t, rfl, ht⟩
  | cons edit edits ih =>
    obtain ⟨hstart, hlt, hrest⟩ := h
    obtain ⟨before, behind, rfl, hbefore⟩ :=
      Utf8.exists_split_of_isBoundary (hboundary edit List.mem_cons_self).1
    have hstop := (hboundary edit List.mem_cons_self).2
    rw [show edit.stop - place = (Utf8.encode before).length + (edit.stop - edit.start) by omega,
      Utf8.isBoundary_append] at hstop
    obtain ⟨inside, after, rfl, hinside⟩ := Utf8.exists_split_of_isBoundary hstop
    have hlength : (Utf8.encode (before ++ (inside ++ after))).length =
        edit.stop - place + (Utf8.encode after).length := by
      simp only [Utf8.encode_append, List.length_append]
      omega
    have hbehind : ∀ n, edit.stop ≤ n →
        Utf8.isBoundary (before ++ (inside ++ after)) (n - place) =
          Utf8.isBoundary after (n - edit.stop) := by
      intro n hn
      rw [show n - place = (Utf8.encode before).length +
          ((Utf8.encode inside).length + (n - edit.stop)) by omega,
        Utf8.isBoundary_append, Utf8.isBoundary_append]
    have hhigh : place + (Utf8.encode (before ++ (inside ++ after))).length =
        edit.stop + (Utf8.encode after).length := by
      rw [hlength]
      omega
    have hafter := (Utf8.encodable_append.mp (Utf8.encodable_append.mp ht).2).2
    obtain ⟨t', ht', hencodable'⟩ := ih (hhigh ▸ hrest) hafter
      (fun e he => hencodable e (List.mem_cons_of_mem edit he)) (fun e he => by
        have hmem := hrest.of_mem he
        have hbound := hboundary e (List.mem_cons_of_mem edit he)
        rw [hbehind _ hmem.1, hbehind _ (by omega)] at hbound
        exact hbound)
    refine ⟨before ++ (edit.replacement ++ t'), ?_, ?_⟩
    · have htake : (Utf8.encode (before ++ (inside ++ after))).take (edit.start - place) =
          Utf8.encode before := by
        rw [← hbefore, Utf8.encode_append, List.take_left]
      have hdrop : (Utf8.encode (before ++ (inside ++ after))).drop (edit.stop - place) =
          Utf8.encode after := by
        rw [show edit.stop - place = (Utf8.encode (before ++ inside)).length by
            rw [Utf8.encode_append, List.length_append]; omega,
          ← List.append_assoc, Utf8.encode_append (before ++ inside), List.drop_left]
      rw [patch, htake, hdrop, ht', Utf8.encode_append, Utf8.encode_append]
    · exact Utf8.encodable_append.mpr ⟨(Utf8.encodable_append.mp ht).1,
        Utf8.encodable_append.mpr ⟨hencodable edit List.mem_cons_self, hencodable'⟩⟩

/-- Edits of an encodable text at its boundaries give a text, the one with all edits
applied at once. -/
theorem exists_applyAll {offset : Nat} {t : Text} {edits sorted : List Edit}
    (h : Spaced offset (offset + (Utf8.encode t).length) sorted)
    (hstarts : sorted.Pairwise fun a b => a.start < b.start) (hperm : edits.Perm sorted)
    (ht : Utf8.Encodable t)
    (hencodable : ∀ edit ∈ sorted, Utf8.Encodable edit.replacement)
    (hboundary : ∀ edit ∈ sorted, Utf8.isBoundary t (edit.start - offset) = true ∧
      Utf8.isBoundary t (edit.stop - offset) = true) :
    ∃ t', applyAll (Utf8.encode t) edits offset = .ok t' ∧
      Utf8.encode t' = patch offset (Utf8.encode t) sorted ∧ Utf8.Encodable t' := by
  obtain ⟨t', hpatch, hencodable'⟩ := exists_text_patch h ht hencodable hboundary
  refine ⟨t', ?_, hpatch.symm, hencodable'⟩
  rw [applyAll, applyInOrder_ordered h hstarts hperm hencodable, hpatch]
  simp only [Utf8.decode_encode hencodable']

/-- Every edit makes the bytes longer by its text and shorter by its range. -/
theorem length_patch {place : Nat} {bytes : Bytes} {edits : List Edit}
    (h : Spaced place (place + bytes.length) edits) :
    ((patch place bytes edits).length : Int) = bytes.length + (edits.map fun edit =>
      ((Utf8.encode edit.replacement).length : Int) - ((edit.stop : Int) - edit.start)).sum := by
  induction edits generalizing place bytes with
  | nil => simp [patch]
  | cons edit edits ih =>
    obtain ⟨hstart, hle, hrest⟩ := h
    have hhigh := hrest.le
    have hlength : (bytes.drop (edit.stop - place)).length = bytes.length - (edit.stop - place) :=
      List.length_drop
    have hothers := @ih edit.stop (bytes.drop (edit.stop - place)) (by
      rw [hlength, show edit.stop + (bytes.length - (edit.stop - place)) = place + bytes.length by
        omega]
      exact hrest)
    rw [patch, List.length_append, List.length_append, List.length_take, List.map_cons,
      List.sum_cons]
    rw [hlength] at hothers
    push_cast
    rw [hothers]
    omega

/-- Edits that start at different places and do not overlap are applied all at once. The
source is any text with a UTF-8 form, its first byte has any number, and the edits begin and
end at code points; an edit may be empty, and edits may touch. Then applying them succeeds,
and in whatever order they are given the result is what stands between the edits with the
new texts put in, in source order. It is longer than the source by what each text is longer
than the range it replaces. -/
theorem applyAll_of_apart {t : Text} (encodable : Utf8.Encodable t) (offset : Nat)
    {edits : List Edit} (distinct : edits.Pairwise fun a b => a.start ≠ b.start)
    (apart : edits.Pairwise fun a b => a.stop ≤ b.start ∨ b.stop ≤ a.start)
    (inside : ∀ edit ∈ edits, offset ≤ edit.start ∧ edit.start ≤ edit.stop ∧
      edit.stop ≤ offset + (Utf8.encode t).length)
    (boundaries : ∀ edit ∈ edits, Utf8.isBoundary t (edit.start - offset) = true ∧
      Utf8.isBoundary t (edit.stop - offset) = true)
    (texts : ∀ edit ∈ edits, Utf8.Encodable edit.replacement) :
    ∃ t' sorted, sorted.Perm edits ∧ (sorted.Pairwise fun a b => a.start < b.start) ∧
      Utf8.encode t' = patch offset (Utf8.encode t) sorted ∧
      (∀ edits', edits'.Perm edits → applyAll (Utf8.encode t) edits' offset = .ok t') ∧
      ((Utf8.encode t').length : Int) = (Utf8.encode t).length + (edits.map fun edit =>
        ((Utf8.encode edit.replacement).length : Int) - ((edit.stop : Int) - edit.start)).sum := by
  obtain ⟨sorted, hperm, hstarts⟩ := exists_sorted distinct
  have hmem : ∀ edit ∈ sorted, edit ∈ edits := fun edit => hperm.mem_iff.mp
  have hspaced : Spaced offset (offset + (Utf8.encode t).length) sorted :=
    spaced_of_apart (Nat.le_add_right _ _) hstarts
      ((hperm.pairwise_iff fun hab => Or.symm hab).mpr apart)
      fun edit hedit => inside edit (hmem edit hedit)
  have happly : ∀ edits', edits'.Perm edits →
      ∃ t', applyAll (Utf8.encode t) edits' offset = .ok t' ∧
        Utf8.encode t' = patch offset (Utf8.encode t) sorted ∧ Utf8.Encodable t' := by
    intro edits' hperm'
    exact exists_applyAll hspaced hstarts (hperm'.trans hperm.symm) encodable
      (fun edit hedit => texts edit (hmem edit hedit))
      (fun edit hedit => boundaries edit (hmem edit hedit))
  obtain ⟨t', -, hpatch, hencodable⟩ := happly edits (List.Perm.refl _)
  refine ⟨t', sorted, hperm, hstarts, hpatch, fun edits' hperm' => ?_, ?_⟩
  · -- Two texts with the same bytes are the same.
    obtain ⟨t'', hok, hpatch', hencodable'⟩ := happly edits' hperm'
    rw [hok, Utf8.eq_of_encode_eq hencodable' hencodable (hpatch'.trans hpatch.symm)]
  · rw [hpatch, length_patch hspaced, (hperm.map _).sum_eq]

/-- The theorem at a text beyond ASCII that begins at the seventh byte, with an edit that is
empty, one that takes away two bytes and one right behind it, given out of order. -/
theorem applyAll_of_apart_sample :
    let t := "xéz".toText
    let edits : List Edit := [⟨10, 11, "long".toText⟩, ⟨7, 7, "«".toText⟩, ⟨8, 10, "e".toText⟩]
    Utf8.Encodable t ∧ (edits.Pairwise fun a b => a.start ≠ b.start) ∧
      (edits.Pairwise fun a b => a.stop ≤ b.start ∨ b.stop ≤ a.start) ∧
      (∀ edit ∈ edits, 7 ≤ edit.start ∧ edit.start ≤ edit.stop ∧
        edit.stop ≤ 7 + (Utf8.encode t).length) ∧
      (∀ edit ∈ edits, Utf8.isBoundary t (edit.start - 7) = true ∧
        Utf8.isBoundary t (edit.stop - 7) = true) ∧
      (∀ edit ∈ edits, Utf8.Encodable edit.replacement) ∧
      (∀ edits', edits'.Perm edits →
        applyAll (Utf8.encode t) edits' 7 = .ok "«xelong".toText) ∧
      ((Utf8.encode "«xelong".toText).length : Int) = (Utf8.encode t).length +
        (edits.map fun edit =>
          ((Utf8.encode edit.replacement).length : Int) - ((edit.stop : Int) - edit.start)).sum := by
  intro t edits
  have encodable : Utf8.Encodable t := Utf8.checkEncodable_eq_ok_iff.mp (by decide +kernel)
  have distinct : edits.Pairwise fun a b => a.start ≠ b.start := by decide +kernel
  have apart : edits.Pairwise fun a b => a.stop ≤ b.start ∨ b.stop ≤ a.start := by decide +kernel
  have inside : ∀ edit ∈ edits, 7 ≤ edit.start ∧ edit.start ≤ edit.stop ∧
      edit.stop ≤ 7 + (Utf8.encode t).length := by decide +kernel
  have boundaries : ∀ edit ∈ edits, Utf8.isBoundary t (edit.start - 7) = true ∧
      Utf8.isBoundary t (edit.stop - 7) = true := by decide +kernel
  have texts : ∀ edit ∈ edits, Utf8.Encodable edit.replacement := by
    have hchecked : ∀ edit ∈ edits, Utf8.checkEncodable edit.replacement = .ok () := by
      decide +kernel
    exact fun edit hedit => Utf8.checkEncodable_eq_ok_iff.mp (hchecked edit hedit)
  have hresult : applyAll (Utf8.encode t) edits 7 = .ok "«xelong".toText := by
    have hsorted : [edits[1], edits[2], edits[0]].Pairwise fun a b => a.start < b.start := by
      decide +kernel
    rw [applyAll, ordered_of_perm hsorted (by decide +kernel)]
    decide +kernel
  obtain ⟨t', sorted, -, -, -, happly, hlength⟩ :=
    applyAll_of_apart encodable 7 distinct apart inside boundaries texts
  obtain rfl : t' = "«xelong".toText :=
    Except.ok.inj ((happly edits (List.Perm.refl _)).symm.trans hresult)
  exact ⟨encodable, distinct, apart, inside, boundaries, texts, happly, hlength⟩

end Unproxy.Edit
