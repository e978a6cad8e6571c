import LedgerSigning.Proofs.DataUpdate
import LedgerSigning.Proofs.Json.Record
import LedgerSigning.Proofs.Number.Arithmetic
import LedgerSigning.Transaction.Basic

/-! Transfers as data updates. A receiver who reads the payload as a transfer gets the numbers of the
sender, whether their canonical texts have the form of integers or not. A number that is not finite
has no text and is sent as null, which is no number for the receiver. -/
namespace LedgerSigning

namespace Tree

variable {tree : Tree}

/-- The canonical token of a float is read as the float, and minus zero as zero. -/
theorem binary64?_token {x : Binary64} (hFinite : x.isFinite = true) :
    ((Number.float x hFinite).token .canonical).binary64? = some x.unsignedZero := by
  rcases Nat.eq_zero_or_pos x.code with hZero | hPos
  · rw [Number.token, if_pos hZero, Binary64.unsignedZero_zero hZero]
    simp only [Layout.canonical, Bool.false_eq_true, if_false, Bool.and_false]
    decide +kernel
  · have hCode := Binary64.code_lt_of_isFinite hFinite
    have hNear := (Decimal.shortest_spec Layout.canonical.ties hCode.le hPos).1
    rw [Binary64.unsignedZero_of_pos hPos]
    exact binary64?_of_denotes (Number.token_float_denotes .canonical hFinite hPos) hNear.symm
      (hNear.trans_lt hCode)

namespace Spells

theorem text? {s : String} (h : tree.Spells (.string s)) : tree.text? = some s := by
  cases h
  rfl

theorem binary64? {x : Binary64} (h : tree.Spells (.ofBinary64 x)) :
    tree.binary64? = if x.isFinite = true then some x.unsignedZero else none := by
  unfold Json.ofBinary64 Number.ofBinary64? at h
  split_ifs with hFinite
  · rw [dif_pos hFinite] at h
    cases h
    exact binary64?_token hFinite
  · rw [dif_neg hFinite] at h
    cases h
    rfl

/-- The fields of a record are spelled by the fields that are read, whatever the order of the
members. -/
theorem fields? {members : List (String × Json)} (h : tree.Spells (.object members)) :
    ∃ trees, tree.fields? (members.map Prod.fst) = some (trees.map some) ∧
      List.Forall₂ Spells trees (members.map Prod.snd) := by
  cases h with
  | @object named _ hOrder hSame hValues =>
      have hField : ∀ m ∈ members, ∃ part,
          field? (named.map fun m => (some m.1, m.2)) m.1 = some (some part) ∧ part.Spells m.2 := by
        intro m hMem
        obtain ⟨⟨key, part⟩, hNamed, hKey⟩ :=
          List.mem_map.mp ((hSame m.1).mpr (List.mem_map_of_mem hMem))
        cases hKey
        exact ⟨part, field?_of_mem hOrder.nodup hNamed, hValues m.1 part m.2 hNamed hMem⟩
      obtain ⟨trees, hTrees⟩ := exists_forall₂ hField
      refine ⟨trees, ?_, ?_⟩
      · rw [Tree.fields?, if_pos (by simp), List.mapM_map]
        rw [mapM_eq_some_iff, List.forall₂_map_right_iff]
        exact hTrees.imp fun _ _ hBoth => hBoth.1
      · rw [List.forall₂_map_right_iff]
        exact hTrees.flip.imp fun _ _ hBoth => hBoth.2

end Spells

end Tree

namespace Binary64

/-- Only the bits of minus zero change, and no value does. -/
theorem unsignedZero_spec (x : Binary64) : x.unsignedZero.toRat = x.toRat ∧
    x.unsignedZero.toBits = if x.toBits = 0x8000000000000000 then 0 else x.toBits := by
  have hCode := x.code_lt
  rcases Nat.eq_zero_or_pos x.code with hZero | hPos
  · rw [unsignedZero_zero hZero]
    constructor
    · rw [toRat, toRat, hZero, value_zero]
      simp [zero, value_zero]
    · rw [toBits, toBits, hZero]
      cases x.negative <;> rfl
  · rw [unsignedZero_of_pos hPos, if_neg]
    · exact ⟨rfl, rfl⟩
    · rw [toBits]
      split_ifs <;> omega

end Binary64

namespace Transfer

variable {t : Transfer}

theorem distinct_toJson (t : Transfer) : t.toJson.Distinct := by
  have hNumber (x : Binary64) : (Json.ofBinary64 x).Distinct := by
    unfold Json.ofBinary64
    split <;> simp
  rw [toJson, Json.distinct_object_iff]
  refine ⟨by simp, fun key value hMem => ?_⟩
  simp only [List.mem_cons, Prod.mk.injEq, List.not_mem_nil, or_false] at hMem
  rcases hMem with ⟨-, rfl⟩ | ⟨-, rfl⟩ | ⟨-, rfl⟩
  · exact Json.distinct_string _
  · exact hNumber _
  · exact hNumber _

/-- No number of a transfer is written as an integer. -/
theorem safe_toJson (t : Transfer) : t.toJson.Safe := by
  have hNumber (x : Binary64) : (Json.ofBinary64 x).Safe := by
    unfold Json.ofBinary64 Number.ofBinary64?
    split_ifs
    · exact Json.safe_number_iff.mpr trivial
    · rintro _ ⟨⟩ _ ⟨⟩
  rw [toJson, Json.safe_object_iff]
  intro key value hMem
  simp only [List.mem_cons, Prod.mk.injEq, List.not_mem_nil, or_false] at hMem
  rcases hMem with ⟨-, rfl⟩ | ⟨-, rfl⟩ | ⟨-, rfl⟩
  · rintro _ ⟨⟩ _ ⟨⟩
  · exact hNumber _
  · exact hNumber _

theorem ofTree?_of_spells {tree : Tree} (h : tree.Spells t.toJson) :
    ofTree? tree = if t.amount.isFinite = true ∧ t.fee.isFinite = true then
      some ⟨t.destination, t.amount.unsignedZero, t.fee.unsignedZero⟩ else none := by
  obtain ⟨trees, hFields, hSpells⟩ := h.fields?
  simp only [List.map_cons, List.map_nil, List.forall₂_cons_right_iff, List.forall₂_nil_right_iff]
    at hSpells
  obtain ⟨destination, _, hDestination, ⟨amount, _, hAmount, ⟨fee, _, hFee, rfl, rfl⟩, rfl⟩, rfl⟩ :=
    hSpells
  simp only [List.map_cons, List.map_nil] at hFields
  have hText := hDestination.text?
  have hFirst := hAmount.binary64?
  have hSecond := hFee.binary64?
  rw [ofTree?, hFields]
  by_cases hAmountFinite : t.amount.isFinite = true
  · by_cases hFeeFinite : t.fee.isFinite = true
    · simp [hText, hFirst, hSecond, hAmountFinite, hFeeFinite]
    · simp [hSecond, hFeeFinite]
  · simp [hFirst, hAmountFinite]

/-- A transfer can always be sent. A receiver who reads it as a transfer gets the destination and
the values of amount and fee, bit by bit but for minus zero, if both are finite, and otherwise finds
no transfer. -/
theorem decode_preimage_transfer (t : Transfer) :
    ∃ octets, t.toJson.preimage .dataUpdate = .ok octets ∧ (octets.length < Numeral.words →
      (t.amount.isFinite = true ∧ t.fee.isFinite = true →
        ∃ q, DataUpdate.decodeAs ofTree? octets = .ok q ∧ q.destination = t.destination ∧
          ∀ x y, (x, y) ∈ [(t.amount, q.amount), (t.fee, q.fee)] → y.toRat = x.toRat ∧
            y.toBits = if x.toBits = 0x8000000000000000 then 0 else x.toBits) ∧
      (t.amount.isFinite = false ∨ t.fee.isFinite = false →
        DataUpdate.decodeAs ofTree? octets = .error .json)) := by
  have hText : t.toJson.canonical = .ok _ := Json.canonical_eq_ok_iff.mpr ⟨t.safe_toJson, rfl⟩
  obtain ⟨tree, hTree, hSpells⟩ := Json.ofText?_canonical t.distinct_toJson hText
  refine ⟨_, Json.preimage_of_canonical hText .dataUpdate, fun hFits => ?_⟩
  have hUnwrap := DataUpdate.unwrap_wrap ((DataUpdate.length_encode_le_wrap _).trans_lt hFits)
  have hRead := ofTree?_of_spells hSpells
  simp only [DataUpdate.decodeAs, hUnwrap, bind, Except.bind, hTree, Option.bind_some, hRead]
  constructor
  · intro hFinite
    rw [if_pos hFinite]
    refine ⟨_, rfl, rfl, ?_⟩
    simp only [List.mem_cons, Prod.mk.injEq, List.not_mem_nil, or_false]
    rintro x y (⟨rfl, rfl⟩ | ⟨rfl, rfl⟩)
    · exact Binary64.unsignedZero_spec _
    · exact Binary64.unsignedZero_spec _
  · intro hNot
    rw [if_neg]
    rintro ⟨hAmount, hFee⟩
    simp [hAmount, hFee] at hNot

/-- Two to the sixtieth, whose digits are those of another integer, and minus zero. -/
theorem decode_preimage_transfer_power :
    let t : Transfer := ⟨"x", .ofBits 0x43B0000000000000, .zero true⟩
    let octets := DataUpdate.wrap (Utf8.encode
      "\x7b\"amount\":1152921504606847000,\"destination\":\"x\",\"fee\":0\x7d".toList)
    t.toJson.preimage .dataUpdate = .ok octets ∧ ∃ q, DataUpdate.decodeAs ofTree? octets = .ok q ∧
      q.destination = "x" ∧ q.amount.toBits = 0x43B0000000000000 ∧ q.fee.toBits = 0 := by
  intro t octets
  have hText : t.toJson.canonical =
      .ok "\x7b\"amount\":1152921504606847000,\"destination\":\"x\",\"fee\":0\x7d".toList := by
    decide +kernel
  have hSent := Json.preimage_of_canonical hText .dataUpdate
  obtain ⟨_, hOctets, hDecoded⟩ := decode_preimage_transfer t
  cases hSent.symm.trans hOctets
  obtain ⟨q, hRead, hDestination, hBits⟩ := (hDecoded (by decide +kernel)).1 ⟨by decide, by decide⟩
  have hAmount := (hBits t.amount q.amount (by simp)).2
  have hFee := (hBits t.fee q.fee (by simp)).2
  exact ⟨hSent, q, hRead, hDestination, hAmount.trans (by decide), hFee.trans (by decide)⟩

end Transfer

end LedgerSigning
