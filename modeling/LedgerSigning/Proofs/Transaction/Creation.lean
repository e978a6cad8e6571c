import LedgerSigning.Proofs.Transaction.Amount
import LedgerSigning.Proofs.Transaction.Encoding
import LedgerSigning.Proofs.Transaction.LifeCycle

/-! Transfers made into transactions. A transfer is made if and only if it passes a list of guards, of
which the first that fails decides the cause of refusal. What it stores are the units of its amounts,
neither cut off nor wrapped around. -/
namespace LedgerSigning

/-- A body holds a transfer from an address, with its parent and salt. -/
structure Body.Records (body : Body) (source : String) (transfer : Transfer) (parent : Reference)
    (salt : String) : Prop where
  source : body.source = source
  destination : body.destination = transfer.destination
  amount : (body.amount.toNat : Int) = Amount.units transfer.amount
  fee : (body.fee.toNat : Int) = Amount.units transfer.fee
  parent : body.parent = parent
  salt : body.salt = salt

/-- The address of a key, if the text is one. -/
def PrivateKey.addressOf (text : String) : String :=
  match ofText text with
  | .ok key => key.address
  | .error _ => ""

namespace Transaction

variable {key salt source : String} {transfer : Transfer} {parent : Reference}

/-- What a key must be. -/
def keyGuards (key : String) : List (Guard KeyError) :=
  [⟨isHexOf 64 key = true, .privateShape⟩,
    ⟨0 < Hex.value key.toList ∧ Hex.value key.toList < Curve.n, .privateRange⟩]

/-- What a transfer from an address must be, in the order in which it is looked at. -/
def transferGuards (source : String) (transfer : Transfer) : List (Guard ArgumentError) :=
  [⟨Address.isValid source = true, .badSource source⟩,
    ⟨Address.isValid transfer.destination = true, .badDestination transfer.destination⟩,
    ⟨source ≠ transfer.destination, .sameAddress⟩,
    ⟨transfer.amount.isFinite = true, .notFinite .amount⟩,
    ⟨Amount.Fits (Amount.units transfer.amount), .tooLarge .amount transfer.amount⟩,
    ⟨transfer.fee.isFinite = true, .notFinite .fee⟩,
    ⟨Amount.Fits (Amount.units transfer.fee), .tooLarge .fee transfer.fee⟩,
    ⟨1 ≤ Amount.units transfer.amount, .belowOneUnit⟩,
    ⟨0 ≤ Amount.units transfer.fee, .negativeFee⟩]

def saltGuards (salt : String) : List (Guard EncodingError) :=
  [⟨∃ n, Salt.Denotes salt n, .badSalt salt⟩]

/-- The guards of a transfer: those of its key, of the transfer from the key's address, and of its
salt. -/
def guards (key : String) (transfer : Transfer) (salt : String) : List (Guard Error) :=
  (keyGuards key).map (.wrap .key) ++
    ((transferGuards (PrivateKey.addressOf key) transfer).map (.wrap .argument) ++
      (saltGuards salt).map (.wrap .encoding))

theorem body_guarded (source : String) (transfer : Transfer) (parent : Reference) (salt : String) :
    Guarded (transferGuards source transfer) (body source transfer parent salt)
      (∃ value, body source transfer parent salt = .ok value ∧
        value.Records source transfer parent salt) := by
  unfold body
  refine .cons (fun h => if_pos (by simpa using h)) fun hSource => ?_
  rw [if_neg (by simpa using hSource)]
  refine .cons (fun h => if_pos (by simpa using h)) fun hDestination => ?_
  rw [if_neg (by simpa using hDestination)]
  refine .cons (fun h => if_pos (not_not.mp h)) fun hSame => ?_
  rw [if_neg hSame]
  refine .cons (fun h => ?_) fun hAmount => ?_
  · rw [Amount.checked_of_not_finite (Bool.eq_false_iff.mpr h)]
    rfl
  refine .cons (fun h => ?_) fun hAmountFits => ?_
  · rw [Amount.checked_of_not_fits hAmount h]
    rfl
  rw [Amount.checked_of_fits hAmount hAmountFits]
  refine .cons (fun h => ?_) fun hFee => ?_
  · rw [Amount.checked_of_not_finite (Bool.eq_false_iff.mpr h)]
    rfl
  refine .cons (fun h => ?_) fun hFeeFits => ?_
  · rw [Amount.checked_of_not_fits hFee h]
    rfl
  rw [Amount.checked_of_fits hFee hFeeFits]
  simp only [bind, Except.bind]
  refine .cons (fun h => if_pos (not_le.mp h)) fun hLeast => ?_
  rw [if_neg (not_lt.mpr hLeast)]
  refine .cons (fun h => if_pos (not_le.mp h)) fun hNegative => ?_
  rw [if_neg (not_lt.mpr hNegative)]
  exact .nil ⟨_, rfl, rfl, rfl, Amount.toNat_ofNat hAmountFits (by omega),
    Amount.toNat_ofNat hFeeFits hNegative, rfl, rfl⟩

theorem records_of_body {value : Body} (h : body source transfer parent salt = .ok value) :
    value.Records source transfer parent salt := by
  have hGuarded := body_guarded source transfer parent salt
  obtain ⟨other, hOther, hRecords⟩ := hGuarded.passed (hGuarded.all_of_ok h)
  cases h.symm.trans hOther
  exact hRecords

/-- A transaction that is made records its transfer, from the address of its key. -/
theorem records_of_create {tx : Transaction} (h : create transfer key parent salt = .ok tx) :
    ∃ k, PrivateKey.ofText key = .ok k ∧ tx.value.Records k.address transfer parent salt := by
  obtain ⟨k, value, hKey, hBody, hSign⟩ := create_eq_ok_iff.mp h
  obtain ⟨_, -, proof, -, rfl⟩ := sign_eq_ok_iff.mp hSign
  exact ⟨k, hKey, records_of_body hBody⟩

theorem hash_guarded (value : Body) :
    Guarded (saltGuards value.salt) value.hash (∃ hash, value.hash = .ok hash) := by
  refine .cons (fun h => ?_) fun ⟨n, hDenotes⟩ =>
    .nil (Body.exists_hash (Salt.hex_of_denotes hDenotes))
  simp only [Body.hash, Body.encode, Body.fields, Salt.hex_of_not_denotes h, bind, Except.bind]

theorem sign_guarded (value : Body) (key : String) :
    Guarded ((saltGuards value.salt).map (.wrap .encoding)) (sign ⟨value, []⟩ key)
      (∃ hash, value.hash = .ok hash) := by
  rw [sign_eq, ← List.append_nil (List.map _ _)]
  refine .bind ((hash_guarded value).imp ?_)
  rintro ⟨hash, hHash⟩
  exact ⟨hash, hHash, .nil ⟨hash, hHash⟩⟩

/-- The guards of a transfer are those of its steps, one after the other. -/
theorem create_guarded (transfer : Transfer) (key : String) (parent : Reference) (salt : String) :
    Guarded (guards key transfer salt) (create transfer key parent salt)
      (∃ k value hash, PrivateKey.ofText key = .ok k ∧
        body k.address transfer parent salt = .ok value ∧
        value.Records k.address transfer parent salt ∧ value.hash = .ok hash) := by
  refine .bind ((PrivateKey.ofText_guarded key).imp ?_)
  rintro ⟨k, hKey, -⟩
  have hSource : PrivateKey.addressOf key = k.address := by rw [PrivateKey.addressOf, hKey]
  rw [hSource]
  refine ⟨k, hKey, .bind ((body_guarded k.address transfer parent salt).imp ?_)⟩
  rintro ⟨value, hBody, hRecords⟩
  have hSign := sign_guarded value key
  rw [hRecords.salt] at hSign
  exact ⟨value, hBody, hSign.imp fun ⟨hash, hHash⟩ =>
    ⟨k, value, hash, hKey, hBody, hRecords, hHash⟩⟩

/-- Behind the guards the conversion to units cuts nothing off. -/
theorem toUnits_of_guards (hAll : ∀ guard ∈ guards key transfer salt, guard.holds) :
    Amount.toUnits transfer.amount = Amount.units transfer.amount ∧
      Amount.toUnits transfer.fee = Amount.units transfer.fee := by
  simp only [guards, List.forall_mem_append, List.forall_mem_map, transferGuards,
    List.forall_mem_cons, Guard.wrap] at hAll
  obtain ⟨-, ⟨-, -, -, hAmount, hAmountFits, hFee, hFeeFits, -⟩, -⟩ := hAll
  exact ⟨Amount.toUnits_of_checked (@Amount.checked_of_fits .amount _ hAmount hAmountFits),
    Amount.toUnits_of_checked (@Amount.checked_of_fits .fee _ hFee hFeeFits)⟩

end Transaction

end LedgerSigning
