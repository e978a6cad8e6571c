import LedgerSigning.Proofs.Json.Number
import LedgerSigning.Proofs.Transaction.Encoding
import LedgerSigning.Proofs.Transport

/-! Salts and their spellings. A salt counts by the integer that it stands for, modulo 2^64 where
that is negative, and not by its leading zeros, its plus sign, or the kind of token that gives
it. -/
namespace LedgerSigning

namespace Salt

variable {salt other : String} {m n : Int}

/-- The number that is written for an integer: 64 bits in two's complement, or more bits as they
are. -/
def residue (n : Int) : Nat := if n < 0 then (n + 2 ^ 64).toNat else n.toNat

theorem Denotes.bounds (h : Denotes salt n) : -2 ^ 63 ≤ n ∧ n < 2 ^ 128 := by
  rcases h with ⟨row, -, -, rfl, hLow⟩ | ⟨k, rfl, -, hHigh⟩
  · exact ⟨hLow, by omega⟩
  · exact ⟨by omega, by exact_mod_cast hHigh⟩

theorem residue_eq_iff (hm : -2 ^ 63 ≤ m) (hn : -2 ^ 63 ≤ n) : residue m = residue n ↔
    m = n ∨ (m < 0 ∧ n = m + 2 ^ 64) ∨ (n < 0 ∧ m = n + 2 ^ 64) := by
  unfold residue
  split_ifs <;> omega

theorem residue_eq_zero_iff (hn : -2 ^ 63 ≤ n) : residue n = 0 ↔ n = 0 := by
  unfold residue
  split_ifs <;> omega

/-- The digits of a salt start with no zero but that of zero itself. -/
theorem head?_hex (n : Int) (hn : -2 ^ 63 ≤ n) :
    ((Numeral.hex (residue n)).head? = some '0' ↔ n = 0) ∧
      (Numeral.hex (residue n) = ['0'] ↔ n = 0) := by
  have hZero : Numeral.hex 0 = ['0'] := rfl
  rw [← residue_eq_zero_iff hn]
  refine ⟨⟨fun hHead => ?_, fun h => by rw [h]; rfl⟩,
    ⟨fun hDigits => Numeral.hex_inj (hDigits.trans hZero.symm), fun h => by rw [h]; rfl⟩⟩
  by_contra hPos
  exact Numeral.head?_toDigits (by decide) (Nat.pos_of_ne_zero hPos) hHead

/-- The decimal digits of an integer, after a minus sign if it is negative. -/
def decimal (n : Int) : String := String.ofList (Numeral.ofInt n)

theorem denotes_decimal (hLow : -2 ^ 63 ≤ n) (hHigh : n < 2 ^ 64) : Denotes (decimal n) n := by
  have hRow := Reader.isRow_toDigits n.natAbs
  have hValue : Nat.ofDigitChars 10 (Nat.toDigits 10 n.natAbs) 0 = n.natAbs :=
    Nat.ofDigitChars_toDigits (by decide) (by decide)
  rw [decimal, Numeral.ofInt]
  split_ifs with hNegative
  · exact .inl ⟨_, String.toList_ofList, hRow, by rw [Numeral.ofNat, hValue]; omega, hLow⟩
  · exact .inr ⟨n.natAbs, by omega, ⟨_, .inl String.toList_ofList, hRow, hValue.symm⟩, by omega⟩

/-- The integer token of an integer, and the string of its decimal digits. -/
def Tokens (n : Int) (tree string : Tree) : Prop :=
  tree = .integer (decide (n < 0)) n.natAbs ∧ string = .string (some (decimal n))

theorem numeralText?_of_tokens {tree string : Tree} (hLow : -2 ^ 63 ≤ n) (hHigh : n < 2 ^ 64)
    (h : Tokens n tree string) : tree.numeralText? = some (decimal n) ∧
      string.numeralText? = some (decimal n) := by
  obtain ⟨rfl, rfl⟩ := h
  have hToken := Number.token_integer .canonical n ⟨by omega, by omega⟩
  rw [Number.token, Tree.number?] at hToken
  refine ⟨?_, rfl⟩
  rw [Tree.numeralText?, hToken]
  rfl

end Salt

namespace Body

variable {b : Body} {salt other : String} {m n : Int}

/-- The text of a body ends with its salt. -/
theorem encode_of_hex (b : Body) : ∃ front : List Char, ∀ salt digits, Salt.hex salt = .ok digits →
    encode { b with salt } = .ok (front ++ counted digits) := by
  refine ⟨'2' :: ([b.source.toList, b.destination.toList, Numeral.hex b.amount.toNat,
    b.parent.hash.toList, Numeral.ofNat b.parent.ordinal.toNat,
    Numeral.ofNat b.fee.toNat].flatMap counted), fun salt digits hDigits => ?_⟩
  simp only [encode, fields, hDigits, bind, Except.bind, List.flatMap_cons, List.flatMap_nil,
    List.append_nil, List.append_assoc, List.cons_append]

theorem encode_of_not_denotes (h : ¬∃ n, Salt.Denotes b.salt n) :
    b.encode = .error (.badSalt b.salt) := by
  simp only [encode, fields, Salt.hex_of_not_denotes h, bind, Except.bind]

theorem encode_eq_iff_residue (hSalt : Salt.Denotes salt m) (hOther : Salt.Denotes other n) :
    encode { b with salt } = encode { b with salt := other } ↔
      Salt.residue m = Salt.residue n := by
  obtain ⟨front, hEncode⟩ := encode_of_hex b
  rw [hEncode _ _ (Salt.hex_of_denotes hSalt), hEncode _ _ (Salt.hex_of_denotes hOther)]
  constructor
  · intro h
    exact Numeral.hex_inj (counted_inj (List.append_cancel_left (Except.ok.inj h)))
  · intro h
    simp only [Salt.residue] at h
    rw [h]

/-- Two trees of a body that are the same but for the salt, an integer token in one of them and a
string in the other. -/
abbrev Respelled (n : Int) : Tree → Tree → Prop :=
  Tree.SameBut ["source", "destination", "amount", "fee", "parent"] [] "salt" (Salt.Tokens n)

/-- A body is read from a record of its six fields. -/
theorem ofTree?_eq_some_iff {tree : Tree} {b : Body} : ofTree? tree = some b ↔
    ∃ source destination amount fee parent salt : Tree,
      tree.fields? ["source", "destination", "amount", "fee", "parent", "salt"] =
        some [some source, some destination, some amount, some fee, some parent, some salt] ∧
      source.text? = some b.source ∧ destination.text? = some b.destination ∧
      amount.unsigned64? = some b.amount ∧ fee.unsigned64? = some b.fee ∧
      Reference.ofTree? parent = some b.parent ∧ salt.numeralText? = some b.salt := by
  rw [ofTree?, Option.bind_eq_bind, Option.bind_eq_some_iff]
  constructor
  · rintro ⟨fields, hFields, hRead⟩
    split at hRead
    next source destination amount fee parent salt =>
      simp only [Option.bind_eq_bind, Option.bind_eq_some_iff, Option.some.injEq] at hRead
      obtain ⟨_, hSource, _, hDestination, _, hAmount, _, hFee, _, hParent, _, hSalt, rfl⟩ := hRead
      exact ⟨source, destination, amount, fee, parent, salt, hFields, hSource, hDestination,
        hAmount, hFee, hParent, hSalt⟩
    next => cases hRead
  · rintro ⟨source, destination, amount, fee, parent, salt, hFields, hSource, hDestination, hAmount,
      hFee, hParent, hSalt⟩
    refine ⟨_, hFields, ?_⟩
    simp only [hSource, hDestination, hAmount, hFee, hParent, hSalt, Option.bind_eq_bind,
      Option.bind_some]

/-- A string in place of a token, or a token in place of a string, leaves the body as it is. -/
theorem ofTree?_of_fields {tree string x y : Tree} {fs : List (Option Tree)}
    (hTree : tree.fields? ["source", "destination", "amount", "fee", "parent", "salt"] =
      some (fs ++ [some x]))
    (hString : string.fields? ["source", "destination", "amount", "fee", "parent", "salt"] =
      some (fs ++ [some y]))
    (hText : x.numeralText? = y.numeralText?) {b : Body} (h : ofTree? tree = some b) :
    ofTree? string = some b ∧ x.numeralText? = some b.salt := by
  obtain ⟨source, destination, amount, fee, parent, salt, hFields, hSource, hDestination, hAmount,
    hFee, hParent, hSalt⟩ := ofTree?_eq_some_iff.mp h
  have hSplit : fs ++ [some x] =
      [some source, some destination, some amount, some fee, some parent] ++ [some salt] :=
    Option.some.inj (hTree.symm.trans hFields)
  obtain ⟨rfl, hLast⟩ := List.append_inj' hSplit rfl
  cases hLast
  exact ⟨ofTree?_eq_some_iff.mpr ⟨source, destination, amount, fee, parent, y, hString, hSource,
    hDestination, hAmount, hFee, hParent, hText ▸ hSalt⟩, hSalt⟩

/-- The kind of token makes no difference to the body that is read, whose salt is the text of the
integer. -/
theorem ofTree?_respelled {tree string : Tree} (hLow : -2 ^ 63 ≤ n) (hHigh : n < 2 ^ 64)
    (h : Respelled n tree string) : ofTree? tree = ofTree? string ∧
      ∀ b, ofTree? tree = some b → b.salt = Salt.decimal n := by
  rcases h.fields? (by decide) with ⟨hTree, hString⟩ |
    ⟨fs, gs, x, y, -, hGs, hTokens, hTree, hString⟩
  · simp only [List.cons_append, List.nil_append] at hTree hString
    simp [ofTree?, hTree, hString]
  · obtain ⟨hx, hy⟩ := Salt.numeralText?_of_tokens hLow hHigh hTokens
    obtain rfl := List.length_eq_zero_iff.mp hGs
    have hText : x.numeralText? = y.numeralText? := hx.trans hy.symm
    refine ⟨Option.ext fun b => ⟨fun hRead => ?_, fun hRead => ?_⟩, fun b hRead => ?_⟩
    · exact (ofTree?_of_fields hTree hString hText hRead).1
    · exact (ofTree?_of_fields hString hTree hText.symm hRead).1
    · have hSalt := (ofTree?_of_fields hTree hString hText hRead).2
      exact Option.some.inj (hSalt.symm.trans hx)

end Body

/-- Signed objects whose values are read alike are read alike. -/
theorem Signed.ofTree?_sameBut {α : Type} {read : Tree → Option α} {R : Tree → Tree → Prop}
    {tree other : Tree} (hRead : ∀ x y, R x y → read x = read y)
    (h : Tree.SameBut [] ["proofs"] "value" R tree other) :
    ofTree? read tree = ofTree? read other ∧
      ∀ signed, ofTree? read tree = some signed → ∃ x y, R x y ∧ read x = some signed.value := by
  rcases h.fields? (by decide) with ⟨hTree, hOther⟩ |
    ⟨fs, gs, x, y, hFs, hGs, hValues, hTree, hOther⟩
  · simp only [List.nil_append] at hTree hOther
    simp [ofTree?, hTree, hOther]
  · obtain rfl := List.length_eq_zero_iff.mp hFs
    simp only [List.nil_append] at hTree hOther
    have hSame := hRead x y hValues
    refine ⟨Option.ext fun signed => ?_, fun signed hSigned => ⟨x, y, hValues, ?_⟩⟩
    · simp only [ofTree?_eq_some_iff, hTree, hOther, Option.some.injEq, List.cons.injEq,
        exists_and_left, and_assoc, exists_eq_left', hSame]
    · obtain ⟨value, proofs, hFields, hValue, -⟩ := ofTree?_eq_some_iff.mp hSigned
      rw [hTree, Option.some.injEq, List.cons.injEq, Option.some.injEq] at hFields
      rwa [hFields.1]

namespace Transaction

/-- Two trees of a transaction that are the same but for the salt, an integer token in one of them
and a string in the other. -/
def Respelled (n : Int) : Tree → Tree → Prop :=
  Tree.SameBut [] ["proofs"] "value" (Body.Respelled n)

theorem ofTree?_respelled {n : Int} {tree string : Tree} (hLow : -2 ^ 63 ≤ n) (hHigh : n < 2 ^ 64)
    (h : Respelled n tree string) : ofTree? tree = ofTree? string ∧
      ∀ tx, ofTree? tree = some tx → tx.value.salt = Salt.decimal n := by
  have hBodies : ∀ x y, Body.Respelled n x y → Body.ofTree? x = Body.ofTree? y :=
    fun _ _ hBody => (Body.ofTree?_respelled hLow hHigh hBody).1
  obtain ⟨hSame, hValue⟩ := Signed.ofTree?_sameBut hBodies h
  refine ⟨hSame, fun tx hTx => ?_⟩
  obtain ⟨x, y, hBody, hRead⟩ := hValue tx hTx
  exact (Body.ofTree?_respelled hLow hHigh hBody).2 _ hRead

/-- A body is written if and only if its salt stands for an integer. Two bodies that differ in the
salt are written alike if and only if the salts stand for the same integer, or for integers 2^64
apart of which one is negative. The digits of the salt start with no zero but that of zero. An
integer of 64 bits is read as a salt from its token as it is from the string of its digits. -/
theorem salt_respelled (b : Body) :
    (∀ salt, ((∃ text, Body.encode { b with salt } = .ok text) ↔ ∃ n, Salt.Denotes salt n) ∧
      ((¬∃ n, Salt.Denotes salt n) → Body.encode { b with salt } = .error (.badSalt salt))) ∧
    (∀ salt other m n, Salt.Denotes salt m → Salt.Denotes other n →
      (Body.encode { b with salt } = Body.encode { b with salt := other } ↔
        m = n ∨ (m < 0 ∧ n = m + 2 ^ 64) ∨ (n < 0 ∧ m = n + 2 ^ 64))) ∧
    (∀ salt n, Salt.Denotes salt n → ∃ front digits, Salt.hex salt = .ok digits ∧
      Body.encode { b with salt } = .ok (front ++ Body.counted digits) ∧
      (digits.head? = some '0' ↔ n = 0) ∧ (digits = ['0'] ↔ n = 0)) ∧
    ∀ n text string tree tree', -2 ^ 63 ≤ n → n < 2 ^ 64 →
      Tree.ofText? text.toList = some tree → Tree.ofText? string.toList = some tree' →
      Respelled n tree tree' → ofText? text = ofText? string ∧
        ∀ tx, ofText? text = some tx → tx.value.salt = Salt.decimal n ∧
          Salt.Denotes tx.value.salt n := by
  obtain ⟨front, hEncode⟩ := Body.encode_of_hex b
  refine ⟨fun salt => ⟨⟨?_, ?_⟩, fun hNone => Body.encode_of_not_denotes hNone⟩,
    fun salt other m n hSalt hOther => ?_, fun salt n hSalt => ?_, ?_⟩
  · rintro ⟨text, hText⟩
    by_contra hNone
    cases hText.symm.trans (@Body.encode_of_not_denotes { b with salt } hNone)
  · rintro ⟨n, hSalt⟩
    exact ⟨_, hEncode salt _ (Salt.hex_of_denotes hSalt)⟩
  · rw [Body.encode_eq_iff_residue hSalt hOther,
      Salt.residue_eq_iff hSalt.bounds.1 hOther.bounds.1]
  · have hHex := Salt.hex_of_denotes hSalt
    exact ⟨front, _, hHex, hEncode salt _ hHex, Salt.head?_hex n hSalt.bounds.1⟩
  · intro n text string tree tree' hLow hHigh hText hString hRespelled
    obtain ⟨hSame, hValue⟩ := ofTree?_respelled hLow hHigh hRespelled
    rw [ofText?, ofText?, hText, hString, Option.bind_some, Option.bind_some]
    refine ⟨hSame, fun tx hTx => ?_⟩
    have hSalt := hValue tx hTx
    exact ⟨hSalt, hSalt ▸ Salt.denotes_decimal hLow hHigh⟩

/-- A transaction as a document, with a salt of any kind. -/
def sampleWith (salt : Json) : Json :=
  .object [("value", .object [("source", .string "a"), ("destination", .string "b"),
      ("amount", .ofUInt64 1), ("fee", .ofUInt64 0),
      ("parent", .object [("hash", .string "c"), ("ordinal", .ofUInt64 0)]), ("salt", salt)]),
    ("proofs", .array [])]

/-- The salt minus one as a token, as a string, and as a numeral of 64 bits. -/
theorem salt_respelled_minusOne :
    let token := (sampleWith (.number (.integer (-1) (by decide)))).compact
    let string := (sampleWith (.string "-1")).compact
    token = "\x7b\"value\":\x7b\"source\":\"a\",\"destination\":\"b\",\"amount\":1,\"fee\":0," ++
      "\"parent\":\x7b\"hash\":\"c\",\"ordinal\":0\x7d,\"salt\":-1\x7d,\"proofs\":[]\x7d" ∧
    ∃ tx, ofText? token = some tx ∧ ofText? string = some tx ∧
      Body.encode tx.value = Body.encode { tx.value with salt := "+018446744073709551615" } := by
  intro token string
  let tx : Transaction := ⟨⟨"a", "b", 1, 0, ⟨"c", 0⟩, "-1"⟩, []⟩
  have hTree (doc : Json) : Tree.ofText? doc.compact.toList = some (doc.tree .document) := by
    rw [Json.compact, String.toList_ofList]
    exact Tree.ofText?_write Writer.readable_compact doc
  have hRespelled : Respelled (-1) ((sampleWith (.number (.integer (-1) (by decide)))).tree .document)
      ((sampleWith (.string "-1")).tree .document) :=
    .member [] _ (.member [_, _, _, _, _] [] ⟨rfl, rfl⟩)
  have hNumeral : Salt.Denotes "+018446744073709551615" 18446744073709551615 :=
    .inr ⟨18446744073709551615, rfl, ⟨"018446744073709551615".toList, .inr rfl,
      ⟨by decide, List.all_eq_true.mp (by decide)⟩, by decide +kernel⟩, by decide⟩
  obtain ⟨-, hEncode, -, hRead⟩ := salt_respelled tx.value
  obtain ⟨hSame, hSalt⟩ := hRead (-1) token string _ _ (by decide) (by decide) (hTree _) (hTree _)
    hRespelled
  have hTx : ofText? string = some tx := by
    rw [ofText?, hTree]
    rfl
  have hMinus : Salt.Denotes "-1" (-1) := (hSalt tx (hSame.trans hTx)).2
  exact ⟨by decide +kernel, tx, hSame.trans hTx, hTx,
    (hEncode _ _ _ _ hMinus hNumeral).mpr (.inr (.inl ⟨by decide, rfl⟩))⟩

end Transaction

end LedgerSigning
