import Mathlib
import Unproxy.Syntax.Expression

/-!
# Unproxy.Proofs.Syntax.Lexeme

Every lexeme is a stretch of the text it is read from, at the head of it.

Main definitions:

* `Token.Begins`: the spelling of a token stands at the head of a text.

Main statements:

* `Lexeme.begins_name?`, `Lexeme.begins_number?`, `Lexeme.begins_symbol?`,
  `Lexeme.begins_escape?`: one for each class of lexemes;
* `Token.begins_ofText`: so do tokens.
-/

namespace Unproxy.Syntax

namespace Lexeme

/-- Two stretches one behind the other. -/
theorem begins_append {first second t : Text} (h : first <+: t)
    (h' : second <+: t.drop first.length) : first ++ second <+: t := by
  obtain ⟨rest, rfl⟩ := h
  rw [List.drop_left] at h'
  exact (List.prefix_append_right_inj first).mpr h'

/-! ### Names -/

theorem begins_bracedHex? {t lexeme : Text} (h : bracedHex? t = some lexeme) : lexeme <+: t := by
  cases t with
  | nil => cases h
  | cons c rest =>
    simp only [bracedHex?] at h
    split at h
    · rename_i hclosed
      simp only [Bool.and_eq_true, decide_eq_true_eq] at hclosed
      obtain ⟨behind, hbehind⟩ := List.head?_eq_some_iff.mp hclosed.2
      have hdigits : rest.takeWhile CodePoint.isHexDigit ++ [CodePoint.ofChar '\x7d'] <+: rest :=
        begins_append (List.takeWhile_prefix _) ⟨behind, hbehind.symm⟩
      cases h
      exact List.cons_prefix_cons.mpr ⟨rfl, hdigits⟩
    · cases h

theorem begins_hexDigits? {n : Nat} {t lexeme : Text} (h : hexDigits? n t = some lexeme) :
    lexeme <+: t := by
  simp only [hexDigits?] at h
  split at h
  · cases h
    exact List.take_prefix n t
  · cases h

theorem begins_unicodeEscape? {t lexeme : Text} (h : unicodeEscape? t = some lexeme) :
    lexeme <+: t := by
  unfold unicodeEscape? at h
  split at h
  · rename_i backslash u rest
    split at h
    · obtain ⟨body, hbody, rfl⟩ := Option.map_eq_some_iff.mp h
      have hbegins : body <+: rest := by
        rw [Option.orElse_eq_some] at hbody
        rcases hbody with hbody | ⟨-, hbody⟩
        · exact begins_bracedHex? hbody
        · exact begins_hexDigits? hbody
      simpa [List.cons_prefix_cons] using hbegins
    · cases h
  · cases h

theorem begins_namePiece? {isAllowed : CodePoint → Bool} {t lexeme : Text}
    (h : namePiece? isAllowed t = some lexeme) : lexeme <+: t := by
  unfold namePiece? at h
  split at h
  · rename_i piece hpiece
    cases h
    exact begins_unicodeEscape? hpiece
  · split at h
    · rename_i c rest
      split at h
      · cases h
        simp [List.cons_prefix_cons]
      · cases h
    · cases h

theorem begins_nameRest (n : Nat) (t : Text) : nameRest n t <+: t := by
  induction n generalizing t with
  | zero => exact List.nil_prefix
  | succ n ih =>
    rw [nameRest]
    split
    · rename_i piece hpiece
      exact begins_append (begins_namePiece? hpiece) (ih _)
    · exact List.nil_prefix

theorem begins_name? {t lexeme : Text} (h : name? t = some lexeme) : lexeme <+: t := by
  obtain ⟨piece, hpiece, rfl⟩ := Option.map_eq_some_iff.mp h
  exact begins_append (begins_namePiece? hpiece) (begins_nameRest _ _)

/-! ### Numbers -/

theorem begins_separatedRest (isAllowed : CodePoint → Bool) (t : Text) :
    separatedRest isAllowed t <+: t := by
  induction t with
  | nil => exact List.nil_prefix
  | cons c rest ih =>
    rw [separatedRest]
    split
    · simpa [List.cons_prefix_cons] using ih
    · split
      · simpa [List.cons_prefix_cons] using ih
      · exact List.nil_prefix

theorem begins_separated (isAllowed : CodePoint → Bool) (t : Text) :
    separated isAllowed t <+: t := by
  rw [separated]
  split
  · exact begins_separatedRest isAllowed t
  · exact List.nil_prefix

theorem begins_decimals (t : Text) : decimals t <+: t := begins_separated _ t

/-- A single code point, if it is allowed. -/
theorem begins_filter_take_one (p : CodePoint → Bool) (t : Text) : (t.take 1).filter p <+: t := by
  cases t with
  | nil => exact List.nil_prefix
  | cons c rest =>
    cases hc : p c with
    | true => simp [hc, List.cons_prefix_cons]
    | false => simp [hc]

theorem begins_exponent (t : Text) : exponent t <+: t := by
  unfold exponent
  split
  · rename_i mark rest
    split
    · dsimp only
      split
      · exact List.nil_prefix
      · have h := begins_append (begins_filter_take_one
          (fun c => c = CodePoint.ofChar '+' || c = CodePoint.ofChar '-') rest)
          (begins_decimals _)
        simpa [List.cons_prefix_cons] using h
    · exact List.nil_prefix
  · exact List.nil_prefix

theorem begins_basedNumber? {t lexeme : Text} (h : basedNumber? t = some lexeme) :
    lexeme <+: t := by
  unfold basedNumber? at h
  split at h
  · rename_i z mark rest
    split at h
    · rename_i base hbase
      dsimp only at h
      split at h
      · cases h
        have h := begins_append (begins_separated (CodePoint.isDigitOf base) rest)
          (begins_filter_take_one (· = CodePoint.ofChar 'n') _)
        simpa [List.cons_prefix_cons] using h
      · cases h
    · cases h
  · cases h

theorem begins_decimalNumber? {t lexeme : Text} (h : decimalNumber? t = some lexeme) :
    lexeme <+: t := by
  have hwhole := begins_decimals t
  have hfraction : ∀ behind : Text,
      decimals behind ++ exponent (behind.drop (decimals behind).length) <+: behind :=
    fun behind => begins_append (begins_decimals behind) (begins_exponent _)
  unfold decimalNumber? at h
  dsimp only at h
  split at h
  · rename_i c more hrest
    have hbehind : ∀ {tail : Text}, tail <+: more → decimals t ++ c :: tail <+: t := by
      intro tail htail
      refine begins_append hwhole ?_
      rw [hrest]
      simpa [List.cons_prefix_cons] using htail
    split at h
    · rename_i hpoint
      split at h
      · cases h
      · cases h
        have hempty : decimals t = [] := by simp at hpoint; simpa using hpoint.2
        have := hbehind (hfraction more)
        rwa [hempty] at this
    · split at h
      · cases h
      · split at h
        · cases h
          exact hbehind (hfraction more)
        · split at h
          · cases h
            exact hbehind List.nil_prefix
          · split at h
            · cases h
              exact begins_append hwhole (begins_exponent _)
            · cases h
              exact hwhole
  · split at h
    · cases h
    · cases h
      exact hwhole

theorem begins_number? {t lexeme : Text} (h : number? t = some lexeme) : lexeme <+: t := by
  rw [number?, Option.orElse_eq_some] at h
  rcases h with h | ⟨-, h⟩
  · exact begins_basedNumber? h
  · exact begins_decimalNumber? h

/-! ### Punctuators and escapes -/

theorem begins_symbol? {t lexeme : Text} (h : symbol? t = some lexeme) : lexeme <+: t := by
  have hfound := List.find?_some h
  rw [Bool.and_eq_true] at hfound
  exact List.isPrefixOf_iff_prefix.mp hfound.1

theorem begins_escape? {t lexeme : Text} (h : escape? t = some lexeme) : lexeme <+: t := by
  unfold escape? at h
  split at h
  · cases h
  · cases h
  · rename_i backslash c rest
    split at h
    · cases h
    · split at h
      · cases h
        have hdigits : ((c :: rest).take 3).takeWhile CodePoint.isOctalDigit <+: c :: rest :=
          (List.takeWhile_prefix _).trans (List.take_prefix _ _)
        exact List.cons_prefix_cons.mpr ⟨rfl, hdigits⟩
      · split at h
        · obtain ⟨body, hbody, rfl⟩ := Option.map_eq_some_iff.mp h
          simpa [List.cons_prefix_cons] using begins_hexDigits? hbody
        · split at h
          · exact begins_unicodeEscape? h
          · split at h
            · split at h <;>
              · cases h
                simp [List.cons_prefix_cons]
            · cases h
              simp

/-! ### Inside quotations -/

theorem begins_stringFragment (quote : CodePoint) (t : Text) :
    Parser.stringFragment quote t <+: t :=
  List.takeWhile_prefix _

theorem begins_templateFragment (t : Text) : Parser.templateFragment t <+: t := by
  induction t with
  | nil => exact List.nil_prefix
  | cons c rest ih =>
    rw [Parser.templateFragment]
    split
    · exact List.nil_prefix
    · split
      · exact List.nil_prefix
      · simpa [List.cons_prefix_cons] using ih

/-- A regular expression is followed by the slash that ends it. -/
theorem begins_regexBody? {place : Parser.RegexPlace} {escaped : Bool} {t body : Text}
    (h : Parser.regexBody? place escaped t = some body) : body ++ [CodePoint.ofChar '/'] <+: t := by
  induction t generalizing place escaped body with
  | nil => cases h
  | cons c rest ih =>
    have hcons : ∀ {place escaped},
        (Parser.regexBody? place escaped rest).map (c :: ·) = some body →
          body ++ [CodePoint.ofChar '/'] <+: c :: rest := by
      intro place escaped h
      obtain ⟨inner, hinner, rfl⟩ := Option.map_eq_some_iff.mp h
      simpa [List.cons_prefix_cons] using ih hinner
    unfold Parser.regexBody? at h
    split at h
    · cases h
    · split at h
      · exact hcons h
      · split at h
        · exact hcons h
        · split at h
          · split at h
            · rename_i hslash
              cases h
              simp [hslash]
            · split at h
              · exact hcons h
              · exact hcons h
          · exact hcons h

/-! ### No lexeme is empty -/

theorem ne_nil_of_unicodeEscape? {t lexeme : Text} (h : unicodeEscape? t = some lexeme) :
    lexeme ≠ [] := by
  unfold unicodeEscape? at h
  split at h
  · obtain ⟨-, h⟩ := Option.ite_none_right_eq_some.mp h
    obtain ⟨body, -, rfl⟩ := Option.map_eq_some_iff.mp h
    exact List.cons_ne_nil _ _
  · cases h

theorem ne_nil_of_namePiece? {isAllowed : CodePoint → Bool} {t lexeme : Text}
    (h : namePiece? isAllowed t = some lexeme) : lexeme ≠ [] := by
  unfold namePiece? at h
  split at h
  · rename_i piece hpiece
    cases h
    exact ne_nil_of_unicodeEscape? hpiece
  · split at h
    · obtain ⟨-, h⟩ := Option.ite_none_right_eq_some.mp h
      cases h
      exact List.cons_ne_nil _ _
    · cases h

theorem ne_nil_of_name? {t lexeme : Text} (h : name? t = some lexeme) : lexeme ≠ [] := by
  obtain ⟨piece, hpiece, rfl⟩ := Option.map_eq_some_iff.mp h
  exact List.append_ne_nil_of_left_ne_nil (ne_nil_of_namePiece? hpiece) _

theorem ne_nil_of_number? {t lexeme : Text} (h : number? t = some lexeme) : lexeme ≠ [] := by
  rw [number?, Option.orElse_eq_some] at h
  rcases h with h | ⟨-, h⟩
  · unfold basedNumber? at h
    split at h
    · split at h
      · obtain ⟨-, h⟩ := Option.ite_none_right_eq_some.mp h
        cases h
        exact List.cons_ne_nil _ _
      · cases h
    · cases h
  · unfold decimalNumber? at h
    dsimp only at h
    split at h
    · split at h
      · obtain ⟨-, h⟩ := Option.ite_none_left_eq_some.mp h
        cases h
        exact List.cons_ne_nil _ _
      · obtain ⟨hwhole, h⟩ := Option.ite_none_left_eq_some.mp h
        have hwhole : decimals t ≠ [] := by simpa using hwhole
        split at h
        · cases h
          exact List.append_ne_nil_of_left_ne_nil hwhole _
        · split at h
          · cases h
            exact List.append_ne_nil_of_left_ne_nil hwhole _
          · split at h
            · cases h
              exact List.append_ne_nil_of_left_ne_nil hwhole _
            · cases h
              exact hwhole
    · obtain ⟨hwhole, h⟩ := Option.ite_none_left_eq_some.mp h
      cases h
      simpa using hwhole

theorem mem_symbols_of_symbol? {t lexeme : Text} (h : symbol? t = some lexeme) : lexeme ∈ symbols :=
  List.mem_of_find?_eq_some h

theorem ne_nil_of_symbol? {t lexeme : Text} (h : symbol? t = some lexeme) : lexeme ≠ [] := by
  have hall : ∀ s ∈ symbols, s ≠ [] := by decide
  exact hall lexeme (mem_symbols_of_symbol? h)

theorem ne_nil_of_escape? {t lexeme : Text} (h : escape? t = some lexeme) : lexeme ≠ [] := by
  unfold escape? at h
  split at h
  · cases h
  · cases h
  · obtain ⟨-, h⟩ := Option.ite_none_left_eq_some.mp h
    split at h
    · cases h
      exact List.cons_ne_nil _ _
    · split at h
      · obtain ⟨body, -, rfl⟩ := Option.map_eq_some_iff.mp h
        exact List.cons_ne_nil _ _
      · split at h
        · exact ne_nil_of_unicodeEscape? h
        · split at h
          · split at h <;>
            · cases h
              exact List.cons_ne_nil _ _
          · cases h
            exact List.cons_ne_nil _ _

end Lexeme

namespace Token

/-- The spelling of a token stands at the head of a text. -/
def Begins (t : Text) : Token → Prop
  | .name spelling | .privateName spelling | .number spelling | .symbol spelling => spelling <+: t
  | .quote c => [c] <+: t
  | .backtick => "`".toText <+: t
  | .finish | .unknown => True

/-- A text begins with its first token. -/
theorem begins_ofText (t : Text) : (Token.ofText t).Begins t := by
  unfold Token.ofText
  split
  · trivial
  · rename_i c rest
    split
    · simp [Begins]
    · split
      · rename_i hbacktick
        rw [hbacktick]
        exact ⟨rest, rfl⟩
      · split
        · split
          · rename_i lexeme hlexeme
            simpa [Begins, List.cons_prefix_cons] using Lexeme.begins_name? hlexeme
          · trivial
        · split
          · split
            · rename_i lexeme hlexeme
              exact Lexeme.begins_number? hlexeme
            · trivial
          · split
            · rename_i lexeme hlexeme
              exact Lexeme.begins_name? hlexeme
            · split
              · rename_i lexeme hlexeme
                exact Lexeme.begins_symbol? hlexeme
              · trivial

end Token

end Unproxy.Syntax
