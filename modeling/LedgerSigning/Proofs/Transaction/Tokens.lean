import LedgerSigning.Proofs.Cli.Decimals
import LedgerSigning.Proofs.Json.Number
import LedgerSigning.Proofs.Number.Neighbours
import LedgerSigning.Proofs.Transaction.Creation

/-! Decimals of at most eight places after the point, which are whole numbers of units. Such a
decimal is rounded to a number, the number times 10^8 is rounded again, and the product is rounded
down. Both roundings together move it by less than half a unit, so it ends at the units that were
written or one below. -/
namespace LedgerSigning

namespace Amount

open Binary64

variable {n : Nat}

/-- The number nearest to a decimal of so many units. -/
def tokens (n : Nat) : Binary64 := .ofDecimal false n (-8)

theorem tokens_code (n : Nat) : (tokens n).code = codeNear (n / 10 ^ 8) := by
  rw [tokens, ofDecimal_code, zpow_neg, ← div_eq_mul_inv]
  rfl

theorem toRat_tokens (n : Nat) : (tokens n).toRat = nearestRat (n / 10 ^ 8) := by
  rw [tokens, toRat_ofDecimal, zpow_neg, ← div_eq_mul_inv]
  rfl

theorem toRat_tokens_nonneg (n : Nat) : 0 ≤ (tokens n).toRat := by
  rw [toRat_tokens]
  exact nearestRat_nonneg (by positivity)

theorem codeNear_tokens_lt (hn : n ≤ 10 ^ 15) : codeNear (n / 10 ^ 8) < infinityCode := by
  have hnQ : (n : ℚ) ≤ 10 ^ 15 := by exact_mod_cast hn
  exact codeNear_units_lt (Nat.cast_nonneg n) (by linarith)

theorem isFinite_tokens (hn : n ≤ 10 ^ 15) : (tokens n).isFinite = true := by
  simpa [isFinite, tokens_code] using codeNear_tokens_lt hn

/-- Rounding the decimal moves its units by less than half a unit. -/
theorem tokens_near (hn : n ≤ 10 ^ 15) : Near (tokens n) n := by
  refine ⟨isFinite_tokens hn, toRat_tokens_nonneg n, ?_⟩
  have hnQ : (n : ℚ) ≤ 10 ^ 15 := by exact_mod_cast hn
  rw [toRat_tokens]
  rcases Nat.eq_zero_or_pos n with rfl | hPos
  · simp [nearestRat_zero]
  have hOne : (1 : ℚ) ≤ n := by exact_mod_cast hPos
  have hError := abs_nearestRat_units_sub_le (v := n) (by linarith) (by linarith)
  linarith

/-- What is written is converted to the units it has or to one less. -/
theorem units_tokens (hn : n ≤ 10 ^ 15) : units (tokens n) =
    if (n : ℚ) - halfGap n ≤ (tokens n).toRat * 10 ^ 8 then (n : Int) else n - 1 :=
  (tokens_near hn).units_eq hn

theorem fits_tokens (hn : n ≤ 10 ^ 15) : Fits (units (tokens n)) := (tokens_near hn).fits hn

theorem toUnits_tokens (hn : n ≤ 10 ^ 15) : toUnits (tokens n) = units (tokens n) :=
  (tokens_near hn).toUnits_eq hn

theorem units_tokens_nonneg (n : Nat) : 0 ≤ units (tokens n) := by
  apply Int.floor_nonneg.mpr
  exact nearestRat_nonneg (mul_nonneg (toRat_tokens_nonneg n) (by norm_num))

/-- One unit or more stays one unit or more. -/
theorem one_le_units_tokens (hPos : 0 < n) (hn : n ≤ 10 ^ 15) : 1 ≤ units (tokens n) := by
  rcases Nat.lt_or_ge n 2 with hSmall | hLarge
  · obtain rfl : n = 1 := by omega
    have hOne : toUnits (tokens 1) = 1 := by decide +kernel
    rw [← toUnits_tokens hn, hOne]
  · rw [units_tokens hn]
    split_ifs <;> omega

/-- A decimal has the same number whatever way it is written. -/
theorem ofDecimal_eq_tokens {digits : Nat} {exponent : Int}
    (hValue : (digits : ℚ) * 10 ^ exponent = n / 10 ^ 8) :
    ofDecimal false digits exponent = tokens n := by
  apply Binary64.ext
  · rw [tokens, ofDecimal_negative, ofDecimal_negative]
  · rw [ofDecimal_code, hValue, tokens_code]

theorem number_of_denotes {text : String} (h : Decimals.Denotes text.toList (n / 10 ^ 8)) :
    Kind.number.value text = .ok (.number (tokens n)) := by
  obtain ⟨digits, exponent, hRead, hValue⟩ := Decimals.binary64?_of_denotes h
  rw [Kind.value, hRead, ofDecimal_eq_tokens hValue]

theorem binary64?_of_denotes {tree : Tree} (hn : n ≤ 10 ^ 15)
    (h : tree.Denotes false (n / 10 ^ 8)) : tree.binary64? = some (tokens n) := by
  apply Tree.binary64?_of_denotes (v := n / 10 ^ 8)
  · rwa [tokens, ofDecimal_negative]
  · exact tokens_code n
  · exact codeNear_tokens_lt hn

end Amount

namespace Transaction

open Amount Binary64

variable {n m : Nat} {source destination salt : String} {parent : Reference}

/-- No transfer is refused for amounts that are written as decimals of units. -/
theorem exists_body_tokens_iff (hPos : 0 < n) (hn : n ≤ 10 ^ 15) (hm : m ≤ 10 ^ 15) :
    (∃ value, body source ⟨destination, tokens n, tokens m⟩ parent salt = .ok value) ↔
      Address.isValid source = true ∧ Address.isValid destination = true ∧
        source ≠ destination := by
  have hGuarded := body_guarded source ⟨destination, tokens n, tokens m⟩ parent salt
  have hGuards : (∀ guard ∈ transferGuards source ⟨destination, tokens n, tokens m⟩,
      guard.holds) ↔ Address.isValid source = true ∧ Address.isValid destination = true ∧
        source ≠ destination := by
    simp [transferGuards, isFinite_tokens hn, isFinite_tokens hm, fits_tokens hn, fits_tokens hm,
      one_le_units_tokens hPos hn, units_tokens_nonneg m]
  rw [← hGuards]
  constructor
  · rintro ⟨value, hBody⟩
    exact hGuarded.all_of_ok hBody
  · intro hAll
    obtain ⟨value, hBody, -⟩ := hGuarded.passed hAll
    exact ⟨value, hBody⟩

/-- An amount and a fee that are written as decimals of units, on a command line or in a document,
are read as the numbers nearest to them and converted to these units, or to one less where the
number lies more than half a gap below them. A transfer of them is refused for its addresses only,
and a transaction of it carries what they were converted to. -/
theorem units_of_decimals (hAmount : 1 ≤ n ∧ n ≤ 10 ^ 15) (hFee : m ≤ 10 ^ 15) :
    (∀ k ∈ [n, m], (tokens k).toRat = nearestRat (k / 10 ^ 8) ∧
      (∀ text : String, Decimals.Denotes text.toList (k / 10 ^ 8) →
        Kind.number.value text = .ok (.number (tokens k))) ∧
      (∀ tree : Tree, tree.Denotes false (k / 10 ^ 8) → tree.binary64? = some (tokens k)) ∧
      Amount.toUnits (tokens k) =
        if (k : ℚ) - halfGap k ≤ (tokens k).toRat * 10 ^ 8 then (k : Int) else k - 1) ∧
    ∀ source destination parent salt,
      ((∃ value, body source ⟨destination, tokens n, tokens m⟩ parent salt = .ok value) ↔
        Address.isValid source = true ∧ Address.isValid destination = true ∧
          source ≠ destination) ∧
      ∀ key tx, create ⟨destination, tokens n, tokens m⟩ key parent salt = .ok tx →
        (tx.value.amount.toNat : Int) = Amount.toUnits (tokens n) ∧
          (tx.value.fee.toNat : Int) = Amount.toUnits (tokens m) := by
  obtain ⟨hPos, hn⟩ := hAmount
  constructor
  · intro k hk
    have hSmall : k ≤ 10 ^ 15 := by
      rcases List.mem_pair.mp hk with rfl | rfl
      · exact hn
      · exact hFee
    refine ⟨toRat_tokens k, fun text => number_of_denotes, fun tree =>
      binary64?_of_denotes hSmall, ?_⟩
    rw [toUnits_tokens hSmall, units_tokens hSmall]
  · intro source destination parent salt
    refine ⟨exists_body_tokens_iff hPos hn hFee, fun key tx hCreate => ?_⟩
    obtain ⟨k, -, hRecords⟩ := records_of_create hCreate
    rw [toUnits_tokens hn, toUnits_tokens hFee]
    exact ⟨hRecords.amount, hRecords.fee⟩

/-- The key of the scalar one sends a token and no fee. What is written as 0.29 tokens loses a
unit. -/
theorem units_of_decimals_token :
    let key := "0000000000000000000000000000000000000000000000000000000000000001"
    let transfer : Transfer :=
      ⟨"DAG4o41NzhfX6DyYBTTXu6sJa6awm36abJpv89jB", tokens 100000000, tokens 0⟩
    Kind.number.value "1" = .ok (.number transfer.amount) ∧
      (Tree.integer false 0).binary64? = some transfer.fee ∧
      (∃ tx, create transfer key ⟨"", 0⟩ "1" = .ok tx ∧
        tx.value.amount.toNat = 100000000 ∧ tx.value.fee.toNat = 0) ∧
      Kind.number.value "0.29" = .ok (.number (tokens 29000000)) ∧
      Amount.toUnits (tokens 29000000) = 28999999 := by
  intro key transfer
  obtain ⟨hReads, hMade⟩ :=
    units_of_decimals (n := 100000000) (m := 0) (by norm_num) (by norm_num)
  obtain ⟨-, hText, -, hUnits⟩ := hReads 100000000 (by simp)
  obtain ⟨-, -, hTree, hNoUnits⟩ := hReads 0 (by simp)
  obtain ⟨hLoss, -⟩ := units_of_decimals (n := 29000000) (m := 0) (by norm_num) (by norm_num)
  obtain ⟨-, hLossText, -, hLossUnits⟩ := hLoss 29000000 (by simp)
  have hBody : body oneToken.source transfer ⟨"", 0⟩ "1" = .ok oneToken := by decide +kernel
  have hAddress : PrivateKey.one.address = oneToken.source := by decide +kernel
  obtain ⟨tx, hSign⟩ := (@exists_sign_iff ⟨oneToken, []⟩ _ key hash_oneToken).mpr signable_oneToken
  have hTx : create transfer key ⟨"", 0⟩ "1" = .ok tx :=
    create_eq_ok_iff.mpr ⟨_, _, PrivateKey.ofText_one, hAddress ▸ hBody, hSign⟩
  obtain ⟨-, hCarried⟩ := hMade oneToken.source transfer.destination ⟨"", 0⟩ "1"
  obtain ⟨hAmount, hFee⟩ := hCarried key tx hTx
  rw [hUnits, if_pos (by decide +kernel)] at hAmount
  rw [hNoUnits, if_pos (by decide +kernel)] at hFee
  rw [if_neg (by decide +kernel)] at hLossUnits
  have hOne : Decimals.Denotes "1".toList ((100000000 : Nat) / 10 ^ 8) := by
    have hValue : (Nat.ofDigitChars 10 ['1'] 0 : ℚ) = (100000000 : Nat) / 10 ^ 8 := by
      decide +kernel
    rw [← hValue]
    exact @Decimals.Denotes.whole ['1'] ⟨by simp, by simp⟩
  have hLess : Decimals.Denotes "0.29".toList ((29000000 : Nat) / 10 ^ 8) := by
    have hValue : (Nat.ofDigitChars 10 (['0'] ++ ['2', '9']) 0 / 10 ^ ['2', '9'].length : ℚ) =
        (29000000 : Nat) / 10 ^ 8 := by decide +kernel
    rw [← hValue]
    exact @Decimals.Denotes.pointed ['0'] ['2', '9'] ⟨by simp, by simp⟩
  exact ⟨hText _ hOne, hTree _ ⟨rfl, by norm_num⟩, ⟨tx, hTx, by omega, by omega⟩,
    hLossText _ hLess, hLossUnits⟩

/-- Three units, written as 0.00000003 tokens, are two. -/
theorem not_units_of_decimals : Amount.toUnits (.ofDecimal false 3 (-8)) = 2 ∧
    ¬∀ n : Nat, 1 ≤ n ∧ n ≤ 10 ^ 15 → Amount.toUnits (.ofDecimal false n (-8)) = n := by
  have hThree : Amount.toUnits (.ofDecimal false 3 (-8)) = 2 := by decide +kernel
  refine ⟨hThree, fun hExact => ?_⟩
  have hClaimed := hExact 3 (by norm_num)
  rw [Nat.cast_ofNat, hThree] at hClaimed
  exact absurd hClaimed (by decide)

end Transaction

end LedgerSigning
