import LedgerSigning.Json.Reader
import LedgerSigning.Json.Writer
import LedgerSigning.Proofs.Text.Units

/-! Quoted strings. What is written between quotes is read back, whatever follows the closing
quote, and a scan that skips string literals passes over the whole of it. -/
namespace LedgerSigning

namespace Writer

open Reader

theorem unit?_control {n : Nat} (hControl : n < 32) :
    unit? '0' '0' (Nat.digitChar (n / 16)) (Nat.digitChar (n % 16)) = some n := by
  revert n
  decide

theorem digitChar_plain {n : Nat} (hDigit : n < 16) :
    Nat.digitChar n ≠ '"' ∧ Nat.digitChar n ≠ '\\' := by
  revert n
  decide

/-- The three ways in which a character stands in a string: after a backslash by one letter,
after a backslash by its code, or as it is. -/
theorem escape_cases (c : Char) :
    (∃ letter, escape c = ['\\', letter] ∧ letter ≠ 'u' ∧ escape? letter = some c.toNat) ∨
    (∃ a b, escape c = ['\\', 'u', '0', '0', a, b] ∧ unit? '0' '0' a b = some c.toNat ∧
      (a ≠ '"' ∧ a ≠ '\\') ∧ b ≠ '"' ∧ b ≠ '\\') ∨
    (escape c = [c] ∧ c ≠ '"' ∧ c ≠ '\\' ∧ ¬c < ' ') := by
  unfold escape
  split_ifs with hQuote hSlash hBack hTab hLine hForm hReturn hControl
  · exact .inl ⟨'"', rfl, by decide, by rw [hQuote]; rfl⟩
  · exact .inl ⟨'\\', rfl, by decide, by rw [hSlash]; rfl⟩
  · exact .inl ⟨'b', rfl, by decide, by rw [hBack]; rfl⟩
  · exact .inl ⟨'t', rfl, by decide, by rw [hTab]; rfl⟩
  · exact .inl ⟨'n', rfl, by decide, by rw [hLine]; rfl⟩
  · exact .inl ⟨'f', rfl, by decide, by rw [hForm]; rfl⟩
  · exact .inl ⟨'r', rfl, by decide, by rw [hReturn]; rfl⟩
  · have hCode : c.toNat < 32 := Char.lt_def.mp hControl
    exact .inr (.inl ⟨_, _, rfl, unit?_control hCode, digitChar_plain (by omega),
      digitChar_plain (by omega)⟩)
  · exact .inr (.inr ⟨rfl, hQuote, hSlash, hControl⟩)

end Writer

namespace Reader

/-- The text of a character is read as its code point. -/
theorem codes?_escape (acc : List Nat) (c : Char) (rest : List Char) :
    codes? acc (Writer.escape c ++ rest) = codes? (c.toNat :: acc) rest := by
  rcases Writer.escape_cases c with ⟨letter, hText, hLetter, hRead⟩ | ⟨a, b, hText, hRead, -⟩ |
    ⟨hText, hQuote, hSlash, hControl⟩
  · rw [hText, List.cons_append, List.cons_append, List.nil_append, codes?, hRead]
    intro a b c d tail hEq
    exact absurd hEq hLetter
  · simp only [hText, List.cons_append, List.nil_append, codes?, hRead]
  · rw [hText, List.cons_append, List.nil_append, codes?, if_neg (by simp [hControl, hSlash])]
    · exact hQuote
    · exact fun _ _ _ _ _ hEq _ => hSlash hEq
    · exact fun _ _ hEq _ => hSlash hEq

theorem codes?_text (acc : List Nat) (text rest : List Char) :
    codes? acc (text.flatMap Writer.escape ++ '"' :: rest) =
      some (acc.reverse ++ text.map Char.toNat, rest) := by
  induction text generalizing acc with
  | nil => simp [codes?]
  | cons c text ih =>
      rw [List.flatMap_cons, List.append_assoc, codes?_escape, ih]
      simp

/-- A quoted string is read back after its opening quote. -/
theorem string?_quoted (s : String) (rest : List Char) :
    string? (s.toList.flatMap Writer.escape ++ '"' :: rest) = some (some s, rest) := by
  simp [string?, codes?_text, Units.join?_toNat]

end Reader

/-- The characters of a JSON text outside its string literals; `inside` says whether the text
starts within one. -/
def outside (inside : Bool) : List Char → List Char
  | [] => []
  | '"' :: rest => outside (!inside) rest
  | '\\' :: c :: rest => if inside then outside true rest else '\\' :: outside false (c :: rest)
  | c :: rest => if inside then outside true rest else c :: outside false rest

namespace Writer

theorem outside_inside {c : Char} (hQuote : c ≠ '"') (hSlash : c ≠ '\\') (rest : List Char) :
    outside true (c :: rest) = outside true rest := by
  rw [outside, if_pos rfl]
  · exact hQuote
  · exact fun _ _ hEq _ => hSlash hEq

theorem outside_escape (c : Char) (rest : List Char) :
    outside true (escape c ++ rest) = outside true rest := by
  rcases escape_cases c with ⟨letter, hText, -, -⟩ | ⟨a, b, hText, -, ⟨ha, ha'⟩, hb, hb'⟩ |
    ⟨hText, hQuote, hSlash, -⟩
  · simp [hText, outside]
  · rw [hText]
    simp only [List.cons_append, List.nil_append, outside, if_true]
    rw [outside_inside (by decide) (by decide), outside_inside (by decide) (by decide),
      outside_inside ha ha', outside_inside hb hb']
  · rw [hText]
    exact outside_inside hQuote hSlash rest

/-- No character of a quoted string stands outside of it. -/
theorem outside_quoted (s : String) (rest : List Char) :
    outside false (quoted s ++ rest) = outside false rest := by
  have hText (text : List Char) :
      outside true (text.flatMap escape ++ '"' :: rest) = outside false rest := by
    induction text with
    | nil => rfl
    | cons c text ih => rw [List.flatMap_cons, List.append_assoc, outside_escape, ih]
  simpa [quoted, outside] using hText s.toList

/-- Characters other than quotes stand outside, each by itself. -/
theorem outside_append {text : List Char} (hPlain : ∀ c ∈ text, c ≠ '"' ∧ c ≠ '\\')
    (rest : List Char) : outside false (text ++ rest) = text ++ outside false rest := by
  induction text with
  | nil => rfl
  | cons c text ih =>
      obtain ⟨hQuote, hSlash⟩ := hPlain c (by simp)
      rw [List.cons_append, outside, if_neg (by decide), ih fun d hd => hPlain d (by simp [hd]),
        List.cons_append]
      · exact hQuote
      · exact fun _ _ hEq _ => hSlash hEq

end Writer

end LedgerSigning
