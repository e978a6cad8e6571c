import Mathlib
import LedgerSigning.Proofs.Json.Token
import LedgerSigning.Signing

/-! Integers that binary64 does not hold exactly. A text with such an integer is refused wherever
its document is to be signed as long as the integer fits 64 bits. A longer one is rounded, and
then texts with different integers have one canonical text. -/
namespace LedgerSigning

theorem Json.le_maxSafe_iff {n : Nat} : n ≤ maxSafe ↔ n < 2 ^ 53 := by
  simp only [maxSafe]
  omega

namespace Number

/-- The integers that are kept as integers: those of 64 bits, signed or not. -/
def Fits (negative : Bool) (magnitude : Nat) : Prop :=
  if negative then magnitude ≤ 2 ^ 63 else magnitude < 2 ^ 64

instance (negative : Bool) (magnitude : Nat) : Decidable (Fits negative magnitude) :=
  inferInstanceAs (Decidable (if negative then magnitude ≤ 2 ^ 63 else magnitude < 2 ^ 64))

/-- The value of an integer token. -/
def tokenValue (negative : Bool) (magnitude : Nat) : Int :=
  if negative then -(magnitude : Int) else magnitude

theorem natAbs_tokenValue (negative : Bool) (magnitude : Nat) :
    (tokenValue negative magnitude).natAbs = magnitude := by
  unfold tokenValue
  split_ifs <;> omega

/-- What an integer token is read as is finite. -/
theorem codeNear_lt_of_ofInteger? {negative : Bool} {magnitude : Nat} {n : Number}
    (h : ofInteger? negative magnitude = some n) :
    Binary64.codeNear magnitude < Binary64.infinityCode := by
  rcases Nat.lt_or_ge (2 ^ 64) magnitude with hLarge | hSmall
  · have hFloat : (Binary64.ofDecimal negative magnitude 0).isFinite = true := by
      have hMinus : ¬(negative = true ∧ magnitude = 0) := by omega
      have hRange : ¬(-0x8000000000000000 ≤ tokenValue negative magnitude ∧
          tokenValue negative magnitude < 0x10000000000000000) := by
        unfold tokenValue
        split_ifs <;> omega
      unfold ofInteger? at h
      simp only [if_neg hMinus] at h
      rw [show (if negative then -(magnitude : Int) else magnitude) =
        tokenValue negative magnitude from rfl, ofInt?, dif_neg hRange] at h
      change ofBinary64? _ = some n at h
      unfold ofBinary64? at h
      split_ifs at h with hFinite
      exact hFinite
    simpa [Binary64.isFinite, Binary64.ofDecimal_code] using hFloat
  · exact Binary64.codeNear_natCast_lt hSmall

/-- An integer token is read as the binary64 number nearest to its value. -/
theorem double_of_ofInteger? {negative : Bool} {magnitude : Nat} {n : Number}
    (h : ofInteger? negative magnitude = some n) :
    n.double = .ofInt (tokenValue negative magnitude) := by
  obtain ⟨m, hRead, hDouble⟩ :=
    ofInteger?_double negative magnitude (codeNear_lt_of_ofInteger? h)
  rw [h] at hRead
  rw [Option.some.inj hRead, hDouble, ← Binary64.ofInt_unsignedZero]
  apply Binary64.unsignedZero_congr
  · rw [Binary64.ofInt_code, natAbs_tokenValue, Binary64.ofDecimal_code, zpow_zero, mul_one]
  · intro hPos
    have hMagnitude : magnitude ≠ 0 := by
      rintro rfl
      simp [Binary64.ofDecimal_code] at hPos
    rw [Binary64.ofDecimal_negative, Binary64.ofInt_negative, tokenValue]
    cases negative with
    | true => simp [Nat.pos_of_ne_zero hMagnitude]
    | false => simp

/-- A number that is read from an integer token is refused if and only if it is kept as an integer
beyond the safe ones. -/
theorem not_safe_iff_of_ofInteger? {negative : Bool} {magnitude : Nat} {n : Number}
    (h : ofInteger? negative magnitude = some n) :
    ¬n.Safe ↔ Json.maxSafe < magnitude ∧ Fits negative magnitude := by
  rcases Nat.lt_or_ge Json.maxSafe magnitude with hLarge | hSmall
  · have hMin : 2 ^ 53 ≤ magnitude := not_lt.mp fun h => hLarge.not_ge (Json.le_maxSafe_iff.mpr h)
    rw [ofInteger?_safe_iff hMin h, not_not, Fits]
    exact (and_iff_right hLarge).symm
  · have hSafe : n.Safe := by
      cases n with
      | float x finite => trivial
      | integer k range =>
          have hCode := congrArg Binary64.code (double_of_ofInteger? h)
          rw [double_integer, Binary64.ofInt_code, Binary64.ofInt_code, natAbs_tokenValue] at hCode
          have hAbs := Binary64.codeNear_natCast_inj (Json.le_maxSafe_iff.mp hSmall) hCode
          rw [Safe]
          omega
    exact iff_of_false (not_not.mpr hSafe) fun hOut => absurd hOut.1 (Nat.not_lt.mpr hSmall)

/-- An exact integer shares its binary64 number with no other. -/
theorem eq_of_ofInt_eq {k l : Int} (hSafe : k.natAbs ≤ Json.maxSafe)
    (h : Binary64.ofInt k = Binary64.ofInt l) : k = l := by
  have hCode := congrArg Binary64.code h
  rw [Binary64.ofInt_code, Binary64.ofInt_code] at hCode
  have hAbs := Binary64.codeNear_natCast_inj (Json.le_maxSafe_iff.mp hSafe) hCode.symm
  have hSign := congrArg Binary64.negative h
  rw [Binary64.ofInt_negative, Binary64.ofInt_negative, decide_eq_decide] at hSign
  omega

/-- Two integer tokens of different values are read as one number only if neither is kept as an
integer. -/
theorem double_eq_iff_of_ofInteger? {negative negative' : Bool} {magnitude magnitude' : Nat}
    {m n : Number} (hm : ofInteger? negative magnitude = some m)
    (hn : ofInteger? negative' magnitude' = some n) (hmSafe : m.Safe) (hnSafe : n.Safe)
    (hValues : tokenValue negative magnitude ≠ tokenValue negative' magnitude') :
    m.double = n.double ↔ ¬Fits negative magnitude ∧ ¬Fits negative' magnitude' ∧
      Binary64.ofInt (tokenValue negative magnitude) =
        Binary64.ofInt (tokenValue negative' magnitude') := by
  rw [double_of_ofInteger? hm, double_of_ofInteger? hn]
  constructor
  · intro hDouble
    refine ⟨fun hFits => hValues ?_, fun hFits => hValues ?_, hDouble⟩
    · apply eq_of_ofInt_eq _ hDouble
      rw [natAbs_tokenValue]
      by_contra hLarge
      exact (not_safe_iff_of_ofInteger? hm).mpr ⟨not_le.mp hLarge, hFits⟩ hmSafe
    · symm
      apply eq_of_ofInt_eq _ hDouble.symm
      rw [natAbs_tokenValue]
      by_contra hLarge
      exact (not_safe_iff_of_ofInteger? hn).mpr ⟨not_le.mp hLarge, hFits⟩ hnSafe
  · exact fun h => h.2.2

end Number

namespace Json

/-- A document that is refused for an integer by every operation that signs or prepares to. -/
structure Refused (doc : Json) (n : Int) : Prop where
  canonical : doc.canonical = .error (.unsafeInteger n)
  preimage (mode : Mode) : doc.preimage mode = .error (.canonical (.unsafeInteger n))
  hash (mode : Mode) : doc.hash mode = .error (.canonical (.unsafeInteger n))
  sign (mode : Mode) (key : String) :
    doc.sign mode key = .error (.encoding (.canonical (.unsafeInteger n)))
  batch (mode : Mode) (keys : List String) (hKeys : keys ≠ []) :
    Signed.batch mode doc keys = .error (.encoding (.canonical (.unsafeInteger n)))

/-- What has no canonical text is refused everywhere, whatever the keys are. -/
theorem refused_of_canonical {doc : Json} {n : Int}
    (h : doc.canonical = .error (.unsafeInteger n)) : doc.Refused n := by
  have hPreimage (mode : Mode) : doc.preimage mode = .error (.canonical (.unsafeInteger n)) := by
    rw [preimage, h]
    rfl
  have hHash (mode : Mode) : doc.hash mode = .error (.canonical (.unsafeInteger n)) := by
    rw [hash, hPreimage]
    rfl
  have hSign (mode : Mode) (key : String) :
      doc.sign mode key = .error (.encoding (.canonical (.unsafeInteger n))) := by
    rw [sign, hHash]
    rfl
  refine ⟨h, hPreimage, hHash, hSign, fun mode keys hKeys => ?_⟩
  obtain ⟨key, keys, rfl⟩ := List.exists_cons_of_ne_nil hKeys
  rw [Signed.batch, if_neg (by simp), List.mapM_cons, hSign]
  rfl

theorem exists_refused_iff {doc : Json} : (∃ n, doc.Refused n) ↔ ¬doc.Safe := by
  constructor
  · rintro ⟨n, hRefused⟩ hSafe
    have hText := canonical_eq_ok_iff.mpr ⟨hSafe, rfl⟩
    rw [hRefused.canonical] at hText
    cases hText
  · intro hUnsafe
    cases hText : doc.canonical with
    | ok s => exact absurd (canonical_eq_ok_iff.mp hText).1 hUnsafe
    | error cause =>
        have hCause := hText
        rw [canonical] at hCause
        split at hCause
        next n _ =>
          cases hCause
          exact ⟨n, refused_of_canonical hText⟩
        next => cases hCause

/-- The numbers of a document that was read are safe unless an integer token of its text is kept
as an unsafe integer. -/
theorem not_safe_iff_token {tree : Tree} {levels : Nat} {doc : Json} (hKeys : tree.Distinct)
    (hRead : tree.toJson? levels = some doc) :
    ¬doc.Safe ↔ ∃ negative magnitude, Tree.Part (.integer negative magnitude) tree ∧
      maxSafe < magnitude ∧ Number.Fits negative magnitude := by
  constructor
  · intro hUnsafe
    rw [safe_iff] at hUnsafe
    push Not at hUnsafe
    obtain ⟨k, range, hPart, hLarge⟩ := hUnsafe
    obtain ⟨below, part, hFound, hToken⟩ := Tree.exists_part hPart hRead
    have hNumber := Tree.number?_of_toJson? hToken
    cases part with
    | integer negative magnitude =>
        have hNot : ¬(Number.integer k range).Safe := not_le.mpr hLarge
        exact ⟨negative, magnitude, hFound, (Number.not_safe_iff_of_ofInteger? hNumber).mp hNot⟩
    | decimal negative significand exponent =>
        simp only [Tree.number?, Number.ofDecimal?, Number.ofBinary64?] at hNumber
        split_ifs at hNumber
        cases hNumber
    | _ => simp [Tree.number?] at hNumber
  · rintro ⟨negative, magnitude, hPart, hOut⟩ hSafe
    obtain ⟨below, d, hToken, hFound⟩ := hPart.toJson? hKeys hRead
    obtain ⟨n, hNumber, rfl⟩ := Option.map_eq_some_iff.mp hToken
    exact (Number.not_safe_iff_of_ofInteger? hNumber).mpr hOut (hSafe _ hFound n rfl)

/-- A document that was read is refused if and only if an integer token of its text fits 64 bits
but is no safe integer. Of two texts that differ in the value of one integer token, both with a
canonical text, the canonical texts are the same if and only if neither token fits 64 bits and
both round to one binary64 number. -/
theorem refused_iff {text other : String} {tree tree' : Tree} {doc doc' : Json}
    (hTree : Tree.ofText? text.toList = some tree) (hTree' : Tree.ofText? other.toList = some tree')
    (hKeys : tree.Distinct) (hKeys' : tree'.Distinct)
    (hRead : ofText? text = some doc) (hRead' : ofText? other = some doc') :
    ((∃ n, doc.Refused n) ↔ ∃ negative magnitude, Tree.Part (.integer negative magnitude) tree ∧
      maxSafe < magnitude ∧ Number.Fits negative magnitude) ∧
    ∀ negative magnitude negative' magnitude',
      Tree.Replaced (.integer negative magnitude) (.integer negative' magnitude') tree tree' →
      Number.tokenValue negative magnitude ≠ Number.tokenValue negative' magnitude' →
      ∀ s t, doc.canonical = .ok s → doc'.canonical = .ok t →
        (s = t ↔ ¬Number.Fits negative magnitude ∧ ¬Number.Fits negative' magnitude' ∧
          Binary64.ofInt (Number.tokenValue negative magnitude) =
            Binary64.ofInt (Number.tokenValue negative' magnitude')) := by
  have hDoc : tree.toJson? Tree.maxLevels = some doc := by simpa [ofText?, hTree] using hRead
  have hDoc' : tree'.toJson? Tree.maxLevels = some doc' := by simpa [ofText?, hTree'] using hRead'
  refine ⟨exists_refused_iff.trans (not_safe_iff_token hKeys hDoc), ?_⟩
  intro negative magnitude negative' magnitude' hReplaced hValues s t hs ht
  obtain ⟨below, d, hToken, hFound⟩ := hReplaced.part_left.toJson? hKeys hDoc
  obtain ⟨m, hm, rfl⟩ := Option.map_eq_some_iff.mp hToken
  obtain ⟨below', d', hToken', hFound'⟩ := hReplaced.part_right.toJson? hKeys' hDoc'
  obtain ⟨n, hn, rfl⟩ := Option.map_eq_some_iff.mp hToken'
  have hSame : Same doc doc' ↔ m.double = n.double :=
    Tree.Replaced.same_iff (a := .integer negative magnitude)
      (b := .integer negative' magnitude') hm hn hReplaced hKeys hKeys' hDoc hDoc'
  rw [canonical_eq_iff (Tree.toJson?_wellFormed hDoc).1 (Tree.toJson?_wellFormed hDoc').1 hs ht,
    hSame]
  exact Number.double_eq_iff_of_ofInteger? hm hn ((canonical_eq_ok_iff.mp hs).1 _ hFound m rfl)
    ((canonical_eq_ok_iff.mp ht).1 _ hFound' n rfl) hValues

/-- The least two integers beyond 64 bits are not refused, and they have one canonical text. -/
theorem refused_iff_beyond : ∃ doc doc',
    ofText? "[18446744073709551616]" = some doc ∧ ofText? "[18446744073709551617]" = some doc' ∧
    doc.canonical = .ok "[18446744073709552000]".toList ∧
    doc'.canonical = .ok "[18446744073709552000]".toList ∧ (¬∃ n, doc.Refused n) ∧
    Binary64.ofInt 18446744073709551616 = Binary64.ofInt 18446744073709551617 := by
  have hTree : Tree.ofText? "[18446744073709551616]".toList =
      some (.array [.integer false 18446744073709551616]) := by cbv
  have hTree' : Tree.ofText? "[18446744073709551617]".toList =
      some (.array [.integer false 18446744073709551617]) := by cbv
  have hKeys (magnitude : Nat) : (Tree.array [.integer false magnitude]).Distinct := by
    intro members hPart
    cases hPart with
    | item hItem hPart =>
        rw [List.mem_singleton.mp hItem] at hPart
        cases hPart
  have hText : (ofText? "[18446744073709551616]").map canonical =
      some (.ok "[18446744073709552000]".toList) := by decide +kernel
  have hText' : (ofText? "[18446744073709551617]").map canonical =
      some (.ok "[18446744073709552000]".toList) := by decide +kernel
  obtain ⟨doc, hRead, hs⟩ := Option.map_eq_some_iff.mp hText
  obtain ⟨doc', hRead', ht⟩ := Option.map_eq_some_iff.mp hText'
  obtain ⟨hRefused, hShared⟩ := refused_iff hTree hTree' (hKeys _) (hKeys _) hRead hRead'
  refine ⟨doc, doc', hRead, hRead', hs, ht, ?_, ?_⟩
  · rw [hRefused]
    rintro ⟨negative, magnitude, hPart, -, hFits⟩
    cases hPart with
    | item hItem hPart =>
        rw [List.mem_singleton.mp hItem] at hPart
        cases hPart
        exact absurd hFits (by decide)
  · exact ((hShared false 18446744073709551616 false 18446744073709551617 (.item [] [] .self)
      (by decide) _ _ hs ht).mp rfl).2.2

end Json

end LedgerSigning
