import LedgerSigning.Proofs.Json.Written
import LedgerSigning.Text.Blank

/-! White space in canonical texts. Outside of string literals there is none: numbers, words and
marks hold no blank character, and no gap is written between them. -/
namespace LedgerSigning

namespace Writer

/-- What stands outside the string literals of a text is never blank, whatever follows it. -/
def Solid (text : List Char) : Prop :=
  ∃ marks, (∀ c ∈ marks, Blank.isBlank c = false) ∧
    ∀ rest, outside false (text ++ rest) = marks ++ outside false rest

theorem Solid.append {first second : List Char} (hFirst : Solid first) (hSecond : Solid second) :
    Solid (first ++ second) := by
  obtain ⟨marks, hMarks, hScan⟩ := hFirst
  obtain ⟨others, hOthers, hScan'⟩ := hSecond
  refine ⟨marks ++ others, fun c hc => ?_, fun rest => ?_⟩
  · rcases List.mem_append.mp hc with hc | hc
    · exact hMarks c hc
    · exact hOthers c hc
  · rw [List.append_assoc, hScan, hScan', List.append_assoc]

/-- Characters that are not blank and neither open a string nor escape anything. -/
def isPlain (c : Char) : Bool := !Blank.isBlank c && c != '"' && c != '\\'

theorem solid_of_plain {text : List Char} (hPlain : ∀ c ∈ text, isPlain c = true) :
    Solid text := by
  simp only [isPlain, Bool.and_eq_true, Bool.not_eq_true', bne_iff_ne] at hPlain
  exact ⟨text, fun c hc => (hPlain c hc).1.1,
    outside_append fun c hc => ⟨(hPlain c hc).1.2, (hPlain c hc).2⟩⟩

/-- A text that is known in full. -/
theorem solid_word {text : List Char} (hPlain : text.all isPlain = true) : Solid text :=
  solid_of_plain (List.all_eq_true.mp hPlain)

theorem solid_nil : Solid [] := solid_of_plain (by simp)

theorem Solid.cons {c : Char} {text : List Char} (hText : Solid text)
    (hPlain : isPlain c = true) : Solid (c :: text) :=
  (solid_of_plain (by simpa using hPlain) : Solid [c]).append hText

theorem solid_quoted (s : String) : Solid (quoted s) :=
  ⟨[], by simp, outside_quoted s⟩

theorem isPlain_of_isDigit {c : Char} (hDigit : c.isDigit = true) : isPlain c = true := by
  have hCode := Reader.digit_bounds hDigit
  have hQuote : c ≠ '"' := by
    rintro rfl
    exact absurd hDigit (by decide)
  have hSlash : c ≠ '\\' := by
    rintro rfl
    exact absurd hDigit (by decide)
  have hBlank : Blank.isBlank c = false := by
    simp only [Blank.isBlank, Blank.ranges, List.any_cons, List.any_nil, Bool.or_false,
      Bool.or_eq_false_iff, Bool.and_eq_false_iff, decide_eq_false_iff_not]
    omega
  simp [isPlain, hQuote, hSlash, hBlank]

theorem solid_digits {text : List Char} (hDigits : ∀ c ∈ text, c.isDigit = true) : Solid text :=
  solid_of_plain fun c hc => isPlain_of_isDigit (hDigits c hc)

theorem solid_toDigits (n : Nat) : Solid (Nat.toDigits 10 n) :=
  solid_digits (Reader.isRow_toDigits n).digit

theorem solid_sign (negative : Bool) : Solid (if negative then ['-'] else []) := by
  cases negative
  · exact solid_nil
  · exact solid_word (by decide)

theorem solid_zeros (count : Nat) : Solid (List.replicate count '0') :=
  solid_of_plain fun c hc => by rw [List.eq_of_mem_replicate hc]; decide

theorem solid_positional (l : Layout) {digits : List Char} (point : Int)
    (hDigits : ∀ c ∈ digits, c.isDigit = true) : Solid (l.positional digits point) := by
  have hWhole : Solid (digits.take point.toNat) :=
    solid_digits fun c hc => hDigits c (List.mem_of_mem_take hc)
  have hFraction : Solid (digits.drop point.toNat) :=
    solid_digits fun c hc => hDigits c (List.mem_of_mem_drop hc)
  have hAll := (solid_digits hDigits).append (solid_zeros (point.toNat - digits.length))
  unfold Layout.positional
  split_ifs
  · exact (((solid_zeros _).append (solid_digits hDigits)).cons (by decide)).cons (by decide)
  · exact hAll.append (solid_word (by decide))
  · exact hAll.append solid_nil
  · exact hWhole.append (hFraction.cons (by decide))

theorem solid_scientific {digits : List Char} (point : Int)
    (hDigits : ∀ c ∈ digits, c.isDigit = true) : Solid (Layout.scientific digits point) := by
  have hFirst : Solid (digits.take 1) :=
    solid_digits fun c hc => hDigits c (List.mem_of_mem_take hc)
  have hMore : Solid (digits.drop 1) :=
    solid_digits fun c hc => hDigits c (List.mem_of_mem_drop hc)
  have hFraction : Solid (if digits.length ≤ 1 then [] else '.' :: digits.drop 1) := by
    split_ifs
    · exact solid_nil
    · exact hMore.cons (by decide)
  have hMark : isPlain (if point - 1 < 0 then '-' else '+') = true := by
    split_ifs <;> decide
  exact (hFirst.append hFraction).append (((solid_toDigits _).cons hMark).cons (by decide))

/-- Numbers are written with digits, signs, points and exponent marks. -/
theorem solid_number (l : Layout) (n : Number) : Solid (number l n) := by
  cases n with
  | integer n range =>
      rw [number, Reader.ofInt_eq]
      simpa using (solid_sign (n < 0)).append (solid_toDigits n.natAbs)
  | float x finite =>
      rcases Nat.eq_zero_or_pos x.code with hZero | hPos
      · rw [number, Layout.text_of_zero l hZero]
        refine (solid_sign _).append (Solid.cons ?_ (by decide))
        split_ifs
        · exact solid_word (by decide)
        · exact solid_nil
      · have hCode := (Binary64.code_lt_of_isFinite finite).le
        obtain ⟨-, -, hDigits⟩ := Layout.digitsOf_spec l hCode hPos
        rw [number, Layout.text_of_pos l finite hPos, Layout.magnitude_eq l hPos.ne']
        refine (solid_sign _).append ?_
        split_ifs
        · exact solid_positional l _ hDigits.digit
        · exact solid_scientific _ hDigits.digit

theorem solid_separated {texts : List (List Char)} (hTexts : ∀ text ∈ texts, Solid text) :
    Solid (separated [] texts) := by
  induction texts with
  | nil => exact solid_nil
  | cons text texts ih =>
      rw [separated_cons]
      have hMore := ih fun t ht => hTexts t (List.mem_cons_of_mem _ ht)
      exact ((hTexts text (by simp)).append hMore).cons (by decide)

theorem solid_enclosed {opening closing : Char} (hOpening : isPlain opening = true)
    (hClosing : isPlain closing = true) {texts : List (List Char)}
    (hTexts : ∀ text ∈ texts, Solid text) : Solid (enclosed opening closing [] [] texts) := by
  have hEnd : Solid [closing] := solid_nil.cons hClosing
  cases texts with
  | nil => exact hEnd.cons hOpening
  | cons text texts =>
      have hMore := solid_separated fun t ht => hTexts t (List.mem_cons_of_mem _ ht)
      exact ((hTexts text (by simp)).append (hMore.append hEnd)).cons hOpening

/-- A canonical text has no white space outside its strings. -/
theorem solid_write (depth : Nat) (doc : Json) : Solid (write canonical depth doc) := by
  induction doc generalizing depth with
  | null => exact (solid_word (by decide) : Solid ['n', 'u', 'l', 'l'])
  | bool b =>
      cases b
      · exact (solid_word (by decide) : Solid ['f', 'a', 'l', 's', 'e'])
      · exact (solid_word (by decide) : Solid ['t', 'r', 'u', 'e'])
  | number n => exact solid_number _ n
  | string s => exact solid_quoted s
  | array items ih =>
      rw [write_array]
      refine solid_enclosed (by decide) (by decide) fun text hText => ?_
      obtain ⟨item, hItem, rfl⟩ := List.mem_map.mp hText
      exact ih item hItem _
  | object members ih =>
      rw [write_object]
      refine solid_enclosed (by decide) (by decide) fun text hText => ?_
      obtain ⟨⟨key, value⟩, hMem, rfl⟩ := List.mem_map.mp hText
      exact (solid_quoted key).append ((ih key value hMem _).cons (by decide))

end Writer

end LedgerSigning
