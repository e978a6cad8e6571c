import LedgerSigning.Proofs.Transaction.Amount
import LedgerSigning.Proofs.Transaction.Encoding
import LedgerSigning.Proofs.Transaction.LifeCycle

/-! Chains of transactions. A batch is made as a whole or not at all: it fails with the cause of the
first transfer that fails, and what it makes are the transfers in order, each transaction referring
to the one before. So a batch may be made in two parts, the second from the reference to the last
transaction of the first. -/
namespace LedgerSigning

/-- A body holds a transfer from an address, with its amounts as units and a drawn salt. -/
structure Body.Carries (body : Body) (source : String) (drawn : Transfer × UInt64) : Prop where
  source : body.source = source
  destination : body.destination = drawn.1.destination
  amount : (body.amount.toNat : Int) = Amount.toUnits drawn.1.amount
  fee : (body.fee.toNat : Int) = Amount.toUnits drawn.1.fee
  salt : body.salt = Salt.ofRandom drawn.2

namespace Transaction

variable {source salt key : String} {transfer : Transfer} {parent start : Reference} {value : Body}
  {cause : Error}

/-- Parent and salt go into a body as they are. -/
theorem body_eq (source : String) (transfer : Transfer) (parent : Reference) (salt : String) :
    body source transfer parent salt =
      (body source transfer ⟨"", 0⟩ "").map fun value => { value with parent, salt } := by
  unfold body
  split_ifs
  · rfl
  · rfl
  · rfl
  · cases Amount.checked .amount transfer.amount with
    | error cause => rfl
    | ok amount =>
        cases Amount.checked .fee transfer.fee with
        | error cause => rfl
        | ok fee =>
            simp only [bind, Except.bind]
            split_ifs <;> rfl

theorem carries_of_body {bits : UInt64}
    (h : body source transfer parent (Salt.ofRandom bits) = .ok value) :
    value.Carries source (transfer, bits) ∧ value.parent = parent := by
  unfold body at h
  split_ifs at h
  obtain ⟨amount, hAmount, h⟩ := Except.bind_eq_ok_iff.mp h
  obtain ⟨fee, hFee, h⟩ := Except.bind_eq_ok_iff.mp h
  split_ifs at h with hLeast hNegative
  cases h
  exact ⟨⟨rfl, rfl, Amount.toNat_ofNat_checked hAmount (by omega),
    Amount.toNat_ofNat_checked hFee (by omega), rfl⟩, rfl⟩

/-- The checks that a transfer passes on its own before it is signed. -/
def check (key : String) (transfer : Transfer) : Except Error Unit := do
  let source ← (PrivateKey.ofText key).mapError .key
  let _ ← (body source.address transfer ⟨"", 0⟩ "").mapError .argument
  .ok ()

/-- A transfer that fails a check is not made, whatever it follows. -/
theorem create_of_check_error (h : check key transfer = .error cause) :
    create transfer key parent salt = .error cause := by
  rcases Except.bind_eq_error_iff.mp h with hKey | ⟨source, hKey, h⟩
  · exact Except.bind_eq_error_iff.mpr (.inl hKey)
  · refine Except.bind_eq_error_iff.mpr (.inr ⟨source, hKey, ?_⟩)
    rcases Except.bind_eq_error_iff.mp h with hBody | ⟨_, _, h⟩
    · refine Except.bind_eq_error_iff.mpr (.inl ?_)
      obtain ⟨fault, hFault, rfl⟩ := Except.mapError_eq_error_iff.mp hBody
      exact Except.mapError_eq_error_iff.mpr ⟨fault, by rw [body_eq, hFault]; rfl, rfl⟩
    · cases h

theorem check_eq_ok_iff : check key transfer = .ok () ↔ ∃ k, PrivateKey.ofText key = .ok k ∧
    ∀ parent salt, ∃ value, body k.address transfer parent salt = .ok value := by
  simp only [check, Except.bind_eq_ok_iff, Except.mapError_eq_ok_iff, and_true]
  refine exists_congr fun k => and_congr_right fun _ => ⟨?_, fun h => h ⟨"", 0⟩ ""⟩
  rintro ⟨value, hBody⟩ parent salt
  exact ⟨_, by rw [body_eq, hBody]; rfl⟩

/-- A transfer that passes its checks is made with a drawn salt, unless the signer finds no
signature. -/
theorem create_spec (bits : UInt64) (h : check key transfer = .ok ()) :
    ∃ k value hash, PrivateKey.ofText key = .ok k ∧ value.Carries k.address (transfer, bits) ∧
      value.parent = parent ∧ value.hash = .ok hash ∧
      ((∃ tx, create transfer key parent (Salt.ofRandom bits) = .ok tx ∧ tx.value = value) ∨
        create transfer key parent (Salt.ofRandom bits) = .error .unsignable ∧
          Signature.Missed k.scalar hash.digest) := by
  obtain ⟨k, hKey, hBody⟩ := check_eq_ok_iff.mp h
  obtain ⟨value, hValue⟩ := hBody parent (Salt.ofRandom bits)
  obtain ⟨hCarries, hParent⟩ := carries_of_body hValue
  obtain ⟨hash, hHash⟩ := Body.exists_hash (hCarries.salt ▸ Salt.hex_ofRandom bits)
  refine ⟨k, value, hash, hKey, hCarries, hParent, hHash, ?_⟩
  rcases @sign_spec ⟨value, []⟩ hash key hHash k hKey with ⟨tx, hSign⟩ | ⟨hSign, hMissed⟩
  · obtain ⟨_, -, proof, -, rfl⟩ := sign_eq_ok_iff.mp hSign
    exact .inl ⟨_, create_eq_ok_iff.mpr ⟨k, value, hKey, hValue, hSign⟩, rfl⟩
  · exact .inr ⟨create_eq_error hKey hValue hSign, hMissed⟩

/-- All transfers pass their checks, and the ordinals go on past the last of them. -/
def Clear (key : String) (start : Reference) (drawn : List (Transfer × UInt64)) : Prop :=
  (∀ d ∈ drawn, check key d.1 = .ok ()) ∧ start.ordinal.toNat + drawn.length < Numeral.words

/-- Each transaction follows the one before, the first of them the reference. -/
def Chained : Reference → List Transaction → Prop
  | _, [] => True
  | parent, tx :: rest => tx.value.parent = parent ∧
    ∃ hash, tx.value.hash = .ok hash ∧ Chained ⟨hash.text, parent.ordinal + 1⟩ rest

theorem toNat_succ {ordinal : UInt64} (h : ordinal.toNat + 1 < Numeral.words) :
    (ordinal + 1).toNat = ordinal.toNat + 1 := by
  rw [UInt64.toNat_add]
  exact Nat.mod_eq_of_lt h

theorem Clear.cons {d : Transfer × UInt64} {drawn : List (Transfer × UInt64)} {hash : String}
    (hCheck : check key d.1 = .ok ()) (hOrdinal : start.ordinal.toNat + 1 < Numeral.words) :
    Clear key start (d :: drawn) ↔ Clear key ⟨hash, start.ordinal + 1⟩ drawn := by
  simp only [Clear, List.forall_mem_cons, hCheck, true_and, toNat_succ hOrdinal, List.length_cons]
  refine and_congr_right fun _ => ?_
  omega

/-- How a batch ends: it is whole, or it stops at the first transfer that fails. -/
inductive BatchOutcome (key : String) (start : Reference) (drawn : List (Transfer × UInt64)) :
    Except Error (List Transaction) → Prop
  | whole {txs : List Transaction} (hClear : Clear key start drawn)
      (hCarries : List.Forall₂ (fun d (tx : Transaction) =>
        ∃ k, PrivateKey.ofText key = .ok k ∧ tx.value.Carries k.address d) drawn txs)
      (hChained : Chained start txs) : BatchOutcome key start drawn (.ok txs)
  | refused {before after : List (Transfer × UInt64)} {d : Transfer × UInt64} {cause : Error}
      (hDrawn : drawn = before ++ d :: after) (hClear : Clear key start before)
      (hCheck : check key d.1 = .error cause) : BatchOutcome key start drawn (.error cause)
  | last {before after : List (Transfer × UInt64)} {d : Transfer × UInt64}
      (hDrawn : drawn = before ++ d :: after) (hClear : Clear key start before)
      (hCheck : check key d.1 = .ok ())
      (hLast : start.ordinal.toNat + before.length + 1 = Numeral.words) :
      BatchOutcome key start drawn (.error (.argument (.lastOrdinal (.ofNat (Numeral.words - 1)))))
  | unsignable {before after : List (Transfer × UInt64)} {d : Transfer × UInt64} {k : PrivateKey}
      {value : Body} {hash : Hash} (hDrawn : drawn = before ++ d :: after)
      (hClear : Clear key start before) (hCheck : check key d.1 = .ok ())
      (hKey : PrivateKey.ofText key = .ok k) (hCarries : value.Carries k.address d)
      (hHash : value.hash = .ok hash) (hMissed : Signature.Missed k.scalar hash.digest) :
      BatchOutcome key start drawn (.error .unsignable)

theorem BatchOutcome.cons {d : Transfer × UInt64} {drawn : List (Transfer × UInt64)}
    {k : PrivateKey} {tx : Transaction} {hash : Hash} {result : Except Error (List Transaction)}
    (hCheck : check key d.1 = .ok ()) (hOrdinal : start.ordinal.toNat + 1 < Numeral.words)
    (hKey : PrivateKey.ofText key = .ok k) (hCarries : tx.value.Carries k.address d)
    (hParent : tx.value.parent = start) (hHash : tx.value.hash = .ok hash)
    (h : BatchOutcome key ⟨hash.text, start.ordinal + 1⟩ drawn result) :
    BatchOutcome key start (d :: drawn) (result.map (tx :: ·)) := by
  have hClearCons (more : List (Transfer × UInt64)) :
      Clear key start (d :: more) ↔ Clear key ⟨hash.text, start.ordinal + 1⟩ more :=
    Clear.cons hCheck hOrdinal
  cases h with
  | whole hClear hAll hChained =>
      exact .whole ((hClearCons _).mpr hClear) (.cons ⟨k, hKey, hCarries⟩ hAll)
        ⟨hParent, hash, hHash, hChained⟩
  | @refused before after _ _ hDrawn hClear hRefused =>
      exact .refused (congrArg (d :: ·) hDrawn) ((hClearCons before).mpr hClear) hRefused
  | @last before after _ hDrawn hClear hPasses hLast =>
      refine .last (congrArg (d :: ·) hDrawn) ((hClearCons before).mpr hClear) hPasses ?_
      rw [List.length_cons, ← hLast, toNat_succ hOrdinal]
      omega
  | @unsignable before after _ _ _ _ hDrawn hClear hPasses hKey' hCarries' hHash' hMissed =>
      exact .unsignable (congrArg (d :: ·) hDrawn) ((hClearCons before).mpr hClear) hPasses hKey'
        hCarries' hHash' hMissed

section Step

variable {rest : List (Transfer × String)} {tx : Transaction} {next : Reference}

theorem batch_of_create_error (hCreate : create transfer key start salt = .error cause) :
    batch key start ((transfer, salt) :: rest) = .error cause :=
  Except.bind_eq_error_iff.mpr (.inl hCreate)

theorem batch_of_next_error (hCreate : create transfer key start salt = .ok tx)
    (hNext : tx.next start = .error cause) :
    batch key start ((transfer, salt) :: rest) = .error cause :=
  Except.bind_eq_error_iff.mpr
    (.inr ⟨tx, hCreate, Except.bind_eq_error_iff.mpr (.inl hNext)⟩)

theorem batch_of_next (hCreate : create transfer key start salt = .ok tx)
    (hNext : tx.next start = .ok next) :
    batch key start ((transfer, salt) :: rest) = (batch key next rest).map (tx :: ·) := by
  cases hRest : batch key next rest with
  | error cause =>
      exact Except.bind_eq_error_iff.mpr (.inr ⟨tx, hCreate, Except.bind_eq_error_iff.mpr
        (.inr ⟨next, hNext, Except.bind_eq_error_iff.mpr (.inl hRest)⟩)⟩)
  | ok others =>
      exact Except.bind_eq_ok_iff.mpr ⟨tx, hCreate, Except.bind_eq_ok_iff.mpr
        ⟨next, hNext, Except.bind_eq_ok_iff.mpr ⟨others, hRest, rfl⟩⟩⟩

end Step

/-- A batch, by induction on its transfers. -/
theorem batch_spec (key : String) (start : Reference) (drawn : List (Transfer × UInt64)) :
    BatchOutcome key start drawn
      (batch key start (drawn.map fun d => (d.1, Salt.ofRandom d.2))) := by
  induction drawn generalizing start with
  | nil => exact .whole ⟨by simp, start.ordinal.toNat_lt⟩ .nil trivial
  | cons d drawn ih =>
      have hFirst : Clear key start [] := ⟨by simp, start.ordinal.toNat_lt⟩
      rw [List.map_cons]
      cases hCheck : check key d.1 with
      | error cause =>
          rw [batch_of_create_error (create_of_check_error hCheck)]
          exact .refused (List.nil_append _).symm hFirst hCheck
      | ok =>
          obtain ⟨k, value, hash, hKey, hCarries, hParent, hHash, hMade | ⟨hNone, hMissed⟩⟩ :=
            @create_spec key d.1 start d.2 hCheck
          · obtain ⟨tx, hCreate, rfl⟩ := hMade
            by_cases hOrdinal : start.ordinal.toNat + 1 < Numeral.words
            · have hNext : tx.next start = .ok ⟨hash.text, start.ordinal + 1⟩ := by
                rw [next, if_pos hOrdinal, reference, hHash]
                rfl
              rw [batch_of_next hCreate hNext]
              exact (ih _).cons hCheck hOrdinal hKey hCarries hParent hHash
            · -- The transaction itself is made, and only then the ordinal cannot advance.
              have hLast : start.ordinal.toNat + 1 = Numeral.words := by
                have hLess := start.ordinal.toNat_lt
                simp only [Numeral.words] at hOrdinal ⊢
                omega
              have hNext : tx.next start = .error (.argument (.lastOrdinal start.ordinal)) :=
                if_neg hOrdinal
              have hEnd : start.ordinal = .ofNat (Numeral.words - 1) := by
                rw [← hLast, Nat.add_sub_cancel, UInt64.ofNat_toNat]
              rw [batch_of_next_error hCreate hNext, hEnd]
              exact .last (List.nil_append _).symm hFirst hCheck hLast
          · rw [batch_of_create_error hNone]
            exact .unsignable (List.nil_append _).symm hFirst hCheck hKey hCarries hHash hMissed

theorem Chained.head {txs : List Transaction} {tx : Transaction} (h : Chained start txs)
    (hHead : txs.head? = some tx) : tx.value.parent = start := by
  cases txs with
  | nil => cases hHead
  | cons first rest =>
      cases hHead
      exact h.1

/-- In a chain each transaction but the first refers to the hash of the one before, and the ordinals
count on from the first. -/
theorem Chained.next {txs : List Transaction} (h : Chained start txs)
    (hOrdinals : start.ordinal.toNat + txs.length < Numeral.words) {i : Nat} {tx next : Transaction}
    (hTx : txs[i]? = some tx) (hNext : txs[i + 1]? = some next) :
    ∃ hash, tx.value.hash = .ok hash ∧ next.value.parent.hash = hash.text ∧
      next.value.parent.ordinal.toNat = start.ordinal.toNat + (i + 1) := by
  induction txs generalizing start i with
  | nil => cases hTx
  | cons first rest ih =>
      obtain ⟨-, hash, hHash, hRest⟩ := h
      rw [List.length_cons] at hOrdinals
      have hSucc : (start.ordinal + 1).toNat = start.ordinal.toNat + 1 := toNat_succ (by omega)
      rw [List.getElem?_cons_succ] at hNext
      cases i with
      | zero =>
          cases hTx
          have hParent := hRest.head (List.head?_eq_getElem? ▸ hNext)
          exact ⟨hash, hHash, by rw [hParent], by rw [hParent, hSucc]⟩
      | succ i =>
          obtain ⟨hash', hHash', hText, hOrdinal⟩ := ih hRest (by rw [hSucc]; omega) hTx hNext
          refine ⟨hash', hHash', hText, ?_⟩
          rw [hOrdinal, hSucc]
          omega

section Append

variable {next : Reference}

/-- What follows a row of transactions refers to the last of them, as many ordinals on as there are
transactions. -/
structure Follows (start : Reference) (txs : List Transaction) (next : Reference) : Prop where
  last : ∃ tx, txs.getLast? = some tx ∧ tx.reference next.ordinal = .ok next
  ordinal : next.ordinal.toNat = start.ordinal.toNat + txs.length

theorem follows_singleton {tx : Transaction} {next : Reference} (h : tx.next start = .ok next) :
    Follows start [tx] next := by
  unfold Transaction.next at h
  split_ifs at h with hOrdinal
  obtain ⟨hash, hHash, hNext⟩ := Except.bind_eq_ok_iff.mp h
  cases hNext
  exact ⟨⟨tx, rfl, h⟩, toNat_succ hOrdinal⟩

theorem Follows.cons {tx : Transaction} {middle next : Reference} {txs : List Transaction}
    (hFirst : tx.next start = .ok middle) (h : Follows middle txs next) :
    Follows start (tx :: txs) next := by
  obtain ⟨last, hLast, hNext⟩ := h.last
  refine ⟨⟨last, ?_, hNext⟩, ?_⟩
  · rw [List.getLast?_cons, hLast, Option.getD_some]
  · have hMiddle := (follows_singleton hFirst).ordinal
    rw [List.length_singleton] at hMiddle
    rw [h.ordinal, hMiddle, List.length_cons]
    omega

/-- There is only one reference to the last transaction. -/
theorem Follows.eq {txs : List Transaction} {other : Reference} (h : Follows start txs next)
    (h' : Follows start txs other) : next = other := by
  obtain ⟨tx, hTx, hNext⟩ := h.last
  obtain ⟨tx', hTx', hOther⟩ := h'.last
  have hOrdinal : next.ordinal = other.ordinal :=
    UInt64.toNat_inj.mp (h.ordinal.trans h'.ordinal.symm)
  cases hTx.symm.trans hTx'
  rw [hOrdinal] at hNext
  exact Except.ok.inj (hNext.symm.trans hOther)

theorem batch_append_of_error {xs ys : List (Transfer × String)}
    (h : batch key start xs = .error cause) : batch key start (xs ++ ys) = .error cause := by
  induction xs generalizing start with
  | nil => cases h
  | cons x xs ih =>
      obtain ⟨transfer, salt⟩ := x
      rw [List.cons_append]
      rcases Except.bind_eq_error_iff.mp h with hCreate | ⟨tx, hCreate, h⟩
      · exact batch_of_create_error hCreate
      rcases Except.bind_eq_error_iff.mp h with hNext | ⟨next, hNext, h⟩
      · exact batch_of_next_error hCreate hNext
      rcases Except.bind_eq_error_iff.mp h with hRest | ⟨others, -, h⟩
      · rw [batch_of_next hCreate hNext, ih hRest]
        rfl
      · cases h

/-- A batch that was made goes on with the reference to its last transaction, by induction on its
transfers. -/
theorem batch_append_of_ok {x : Transfer × String} {xs : List (Transfer × String)}
    {txs : List Transaction} (h : batch key start (x :: xs) = .ok txs) :
    txs.length = xs.length + 1 ∧ ∃ next, Follows start txs next ∧
      ∀ ys, batch key start (x :: xs ++ ys) = (batch key next ys).map (txs ++ ·) := by
  induction xs generalizing x start txs with
  | nil =>
      obtain ⟨tx, hCreate, h⟩ := Except.bind_eq_ok_iff.mp h
      obtain ⟨next, hNext, h⟩ := Except.bind_eq_ok_iff.mp h
      cases h
      exact ⟨rfl, next, follows_singleton hNext, fun ys => batch_of_next hCreate hNext⟩
  | cons y xs ih =>
      obtain ⟨tx, hCreate, h⟩ := Except.bind_eq_ok_iff.mp h
      obtain ⟨middle, hMiddle, h⟩ := Except.bind_eq_ok_iff.mp h
      obtain ⟨others, hOthers, h⟩ := Except.bind_eq_ok_iff.mp h
      cases h
      obtain ⟨hLength, next, hFollows, hAppend⟩ := ih hOthers
      refine ⟨by rw [List.length_cons, hLength, List.length_cons], next, hFollows.cons hMiddle,
        fun ys => ?_⟩
      have hFirst : batch key start (x :: y :: xs ++ ys) =
          (batch key middle (y :: xs ++ ys)).map (tx :: ·) := batch_of_next hCreate hMiddle
      rw [hFirst, hAppend]
      cases batch key next ys <;> rfl

/-- A batch in two parts. It is made if and only if the first part is, and the second part from the
reference to the last transaction of the first, as many ordinals on as the first part has transfers;
and then it is the two parts one after the other. It is refused with the cause of the first part, and
with that of the second where the first is made. -/
theorem batch_append_iff (key : String) (start : Reference) (x : Transfer × String)
    (xs ys : List (Transfer × String)) :
    (∀ txs, batch key start (x :: xs ++ ys) = .ok txs ↔ ∃ first next second,
      batch key start (x :: xs) = .ok first ∧ first.length = (x :: xs).length ∧
        Follows start first next ∧ batch key next ys = .ok second ∧ txs = first ++ second) ∧
    ∀ cause, batch key start (x :: xs ++ ys) = .error cause ↔
      batch key start (x :: xs) = .error cause ∨ ∃ first next,
        batch key start (x :: xs) = .ok first ∧ first.length = (x :: xs).length ∧
          Follows start first next ∧ batch key next ys = .error cause := by
  cases hFirst : batch key start (x :: xs) with
  | error fault =>
      rw [batch_append_of_error hFirst]
      simp
  | ok first =>
      obtain ⟨hLength, next, hFollows, hAppend⟩ := batch_append_of_ok hFirst
      rw [hAppend]
      constructor
      · intro txs
        constructor
        · intro hTxs
          obtain ⟨second, hSecond, rfl⟩ := Except.map_eq_ok_iff.mp hTxs
          exact ⟨first, next, second, rfl, hLength, hFollows, hSecond, rfl⟩
        · rintro ⟨_, other, second, ⟨⟩, -, hOther, hSecond, rfl⟩
          rw [hFollows.eq hOther, hSecond]
          rfl
      · intro cause
        rw [Except.map_eq_error_iff]
        constructor
        · exact fun hCause => .inr ⟨first, next, rfl, hLength, hFollows, hCause⟩
        · rintro (hNone | ⟨_, other, ⟨⟩, -, hOther, hCause⟩)
          · cases hNone
          · rw [hFollows.eq hOther, hCause]

end Append

end Transaction

end LedgerSigning
