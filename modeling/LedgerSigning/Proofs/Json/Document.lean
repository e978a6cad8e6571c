import LedgerSigning.Proofs.Json.Number
import Mathlib.Data.List.Forall2
import Mathlib.Data.List.Perm.Basic

/-! Documents by structure: their parts, how deep they are nested, and when two of them are
alike up to the order of members. -/
namespace LedgerSigning

namespace Json

/-- To prove something of every document, prove it of arrays and objects from their items and
members. -/
@[elab_as_elim, induction_eliminator]
theorem induct {motive : Json → Prop} (null : motive .null) (bool : ∀ b, motive (.bool b))
    (number : ∀ n, motive (.number n)) (string : ∀ s, motive (.string s))
    (array : ∀ items, (∀ item ∈ items, motive item) → motive (.array items))
    (object : ∀ members, (∀ key value, (key, value) ∈ members → motive value) →
      motive (.object members)) (doc : Json) : motive doc := by
  refine @Json.rec motive (fun items => ∀ item ∈ items, motive item)
    (fun members => ∀ key value, (key, value) ∈ members → motive value) (fun m => motive m.2)
    null bool number string array object ?_ ?_ ?_ ?_ ?_ doc
  · simp
  · intro item rest hItem hRest
    simpa using ⟨hItem, hRest⟩
  · simp
  · intro m rest hMember hRest key value hMem
    rcases List.mem_cons.mp hMem with hEq | hMem
    · rw [← hEq] at hMember
      exact hMember
    · exact hRest key value hMem
  · exact fun _ _ hValue => hValue

/-- A document that stands somewhere in another, at any depth. -/
inductive Part (part : Json) : Json → Prop
  | self : Part part part
  | item {items : List Json} {item : Json} (hItem : item ∈ items) (hPart : Part part item) :
      Part part (.array items)
  | member {members : List (String × Json)} {key : String} {value : Json}
      (hMember : (key, value) ∈ members) (hPart : Part part value) : Part part (.object members)

/-- How many arrays and objects stand inside each other. -/
def depth : Json → Nat
  | .array items => itemDepth items + 1
  | .object members => memberDepth members + 1
  | _ => 0
where
  itemDepth : List Json → Nat
    | [] => 0
    | item :: rest => max (depth item) (itemDepth rest)
  memberDepth : List (String × Json) → Nat
    | [] => 0
    | (_, value) :: rest => max (depth value) (memberDepth rest)

theorem itemDepth_le_iff {items : List Json} {levels : Nat} :
    depth.itemDepth items ≤ levels ↔ ∀ item ∈ items, item.depth ≤ levels := by
  induction items with
  | nil => simp [depth.itemDepth]
  | cons item rest ih => simp [depth.itemDepth, ih]

theorem memberDepth_le_iff {members : List (String × Json)} {levels : Nat} :
    depth.memberDepth members ≤ levels ↔
      ∀ key value, (key, value) ∈ members → value.depth ≤ levels := by
  induction members with
  | nil => simp [depth.memberDepth]
  | cons m rest ih =>
      obtain ⟨key, value⟩ := m
      simp only [depth.memberDepth, Nat.max_le, ih, List.mem_cons]
      constructor
      · rintro ⟨hFirst, hRest⟩ k v (hEq | hMem)
        · rw [(Prod.mk.inj hEq).2]
          exact hFirst
        · exact hRest k v hMem
      · intro hAll
        exact ⟨hAll key value (.inl rfl), fun k v hMem => hAll k v (.inr hMem)⟩

/-- What holds of every part of a document, the document itself included. -/
def Everywhere (p : Json → Prop) (doc : Json) : Prop := ∀ part, Part part doc → p part

theorem everywhere_array_iff {p : Json → Prop} {items : List Json} :
    Everywhere p (.array items) ↔ p (.array items) ∧ ∀ item ∈ items, Everywhere p item := by
  constructor
  · intro hAll
    exact ⟨hAll _ .self, fun item hItem part hPart => hAll part (.item hItem hPart)⟩
  · rintro ⟨hSelf, hItems⟩ part hPart
    cases hPart with
    | self => exact hSelf
    | item hItem hPart => exact hItems _ hItem part hPart

theorem everywhere_object_iff {p : Json → Prop} {members : List (String × Json)} :
    Everywhere p (.object members) ↔ p (.object members) ∧
      ∀ key value, (key, value) ∈ members → Everywhere p value := by
  constructor
  · intro hAll
    exact ⟨hAll _ .self, fun key value hMem part hPart => hAll part (.member hMem hPart)⟩
  · rintro ⟨hSelf, hMembers⟩ part hPart
    cases hPart with
    | self => exact hSelf
    | member hMem hPart => exact hMembers _ _ hMem part hPart

/-- No object of the document repeats a key. -/
def Distinct : Json → Prop :=
  Everywhere fun part => ∀ members, part = .object members → (members.map Prod.fst).Nodup

@[simp] theorem distinct_null : Distinct .null := by rintro _ ⟨⟩ _ ⟨⟩

@[simp] theorem distinct_bool (b : Bool) : Distinct (.bool b) := by rintro _ ⟨⟩ _ ⟨⟩

@[simp] theorem distinct_number (n : Number) : Distinct (.number n) := by rintro _ ⟨⟩ _ ⟨⟩

@[simp] theorem distinct_string (s : String) : Distinct (.string s) := by rintro _ ⟨⟩ _ ⟨⟩

theorem distinct_array_iff {items : List Json} :
    Distinct (.array items) ↔ ∀ item ∈ items, Distinct item := by
  simp [Distinct, everywhere_array_iff]

theorem distinct_object_iff {members : List (String × Json)} :
    Distinct (.object members) ↔ (members.map Prod.fst).Nodup ∧
      ∀ key value, (key, value) ∈ members → Distinct value := by
  simp [Distinct, everywhere_object_iff]

/-- Every number of the document has a canonical text. -/
def Safe : Json → Prop := Everywhere fun part => ∀ n, part = .number n → n.Safe

theorem safe_number_iff {n : Number} : Safe (.number n) ↔ n.Safe := by
  constructor
  · intro hSafe
    exact hSafe _ .self n rfl
  · rintro hSafe _ ⟨⟩ _ ⟨⟩
    exact hSafe

theorem safe_array_iff {items : List Json} :
    Safe (.array items) ↔ ∀ item ∈ items, Safe item := by
  simp [Safe, everywhere_array_iff]

theorem safe_object_iff {members : List (String × Json)} :
    Safe (.object members) ↔ ∀ key value, (key, value) ∈ members → Safe value := by
  simp [Safe, everywhere_object_iff]

/-- Two documents of one shape whose numbers correspond. Items correspond in order; objects
have the same keys, and the members of a key correspond. -/
inductive Alike (R : Number → Number → Prop) : Json → Json → Prop
  | null : Alike R .null .null
  | bool (b : Bool) : Alike R (.bool b) (.bool b)
  | number {m n : Number} (hNumber : R m n) : Alike R (.number m) (.number n)
  | string (s : String) : Alike R (.string s) (.string s)
  | array {items others : List Json} (hItems : List.Forall₂ (Alike R) items others) :
      Alike R (.array items) (.array others)
  | object {members others : List (String × Json)}
      (hKeys : ∀ key, key ∈ members.map Prod.fst ↔ key ∈ others.map Prod.fst)
      (hValues : ∀ key value other, (key, value) ∈ members → (key, other) ∈ others →
        Alike R value other) : Alike R (.object members) (.object others)

/-- The same document: the members of an object are taken as a set, and numbers as the
binary64 numbers they denote. -/
def Same : Json → Json → Prop := Alike fun m n => m.double = n.double

variable {R S : Number → Number → Prop}

/-- The members of keys that occur in two lists of members. -/
theorem exists_member {members others : List (String × Json)}
    (hKeys : ∀ key, key ∈ members.map Prod.fst ↔ key ∈ others.map Prod.fst) {key : String}
    {value : Json} (hMem : (key, value) ∈ members) : ∃ other, (key, other) ∈ others := by
  have hKey := (hKeys key).mp (List.mem_map_of_mem hMem)
  simpa using hKey

/-- A key that is not repeated has one value. -/
theorem member_unique {members : List (String × Json)} (hKeys : (members.map Prod.fst).Nodup)
    {key : String} {value other : Json} (hMem : (key, value) ∈ members)
    (hOther : (key, other) ∈ members) : value = other :=
  (Prod.mk.inj (List.inj_on_of_nodup_map hKeys hMem hOther rfl)).2

theorem Alike.imp (hImp : ∀ m n, R m n → S m n) {d e : Json} (h : Alike R d e) : Alike S d e := by
  induction d generalizing e with
  | null => cases h; exact .null
  | bool b => cases h; exact .bool b
  | number n => cases h with | number hNumber => exact .number (hImp _ _ hNumber)
  | string s => cases h; exact .string s
  | array items ih =>
      cases h with
      | array hItems =>
          rw [List.forall₂_iff_zip] at hItems
          refine .array (List.forall₂_iff_zip.mpr ⟨hItems.1, fun hMem => ?_⟩)
          exact ih _ (List.of_mem_zip hMem).1 (hItems.2 hMem)
  | object members ih =>
      cases h with
      | object hKeys hValues =>
          exact .object hKeys fun key value other hMember hOther =>
            ih key value hMember (hValues key value other hMember hOther)

theorem Alike.flip {d e : Json} (h : Alike R d e) : Alike (fun m n => R n m) e d := by
  induction d generalizing e with
  | null => cases h; exact .null
  | bool b => cases h; exact .bool b
  | number n => cases h with | number hNumber => exact .number hNumber
  | string s => cases h; exact .string s
  | array items ih =>
      cases h with
      | array hItems =>
          have hFlip := hItems.flip
          rw [List.forall₂_iff_zip] at hFlip
          refine .array (List.forall₂_iff_zip.mpr ⟨hFlip.1, fun hMem => ?_⟩)
          exact ih _ (List.of_mem_zip hMem).2 (hFlip.2 hMem)
  | object members ih =>
      cases h with
      | object hKeys hValues =>
          exact .object (fun key => (hKeys key).symm) fun key value other hMember hOther =>
            ih key other hOther (hValues key other value hOther hMember)

theorem Alike.trans {d e f : Json} (hFirst : Alike R d e) (hSecond : Alike S e f) :
    Alike (fun m n => ∃ k, R m k ∧ S k n) d f := by
  induction d generalizing e f with
  | null => cases hFirst; cases hSecond; exact .null
  | bool b => cases hFirst; cases hSecond; exact .bool b
  | number n =>
      cases hFirst with
      | number hLeft => cases hSecond with | number hRight => exact .number ⟨_, hLeft, hRight⟩
  | string s => cases hFirst; cases hSecond; exact .string s
  | array items ih =>
      cases hFirst with
      | array hLeft =>
          cases hSecond with
          | array hRight =>
              refine .array ?_
              rw [List.forall₂_iff_get] at *
              refine ⟨hLeft.1.trans hRight.1, fun i hi hi' => ?_⟩
              exact ih _ (List.get_mem _ _) (hLeft.2 i hi (hLeft.1 ▸ hi))
                (hRight.2 i (hLeft.1 ▸ hi) hi')
  | object members ih =>
      cases hFirst with
      | object hKeys hValues =>
          cases hSecond with
          | object hKeys' hValues' =>
              refine .object (fun key => (hKeys key).trans (hKeys' key)) ?_
              intro key value other hMember hOther
              obtain ⟨middle, hMiddle⟩ := exists_member hKeys hMember
              exact ih key value hMember (hValues key value middle hMember hMiddle)
                (hValues' key middle other hMiddle hOther)

theorem Same.symm {d e : Json} (h : Same d e) : Same e d :=
  Alike.imp (fun _ _ hDouble => Eq.symm hDouble) (Alike.flip h)

theorem Same.trans {d e f : Json} (hFirst : Same d e) (hSecond : Same e f) : Same d f :=
  Alike.imp (fun _ _ ⟨_, hLeft, hRight⟩ => Eq.trans hLeft hRight) (Alike.trans hFirst hSecond)

/-- Each number of a document has its counterpart in any document like it. -/
theorem Alike.exists_number {d e : Json} (h : Alike R d e) {m : Number}
    (hPart : Part (.number m) d) : ∃ n, R m n ∧ Part (.number n) e := by
  induction d generalizing e with
  | null => cases hPart
  | bool b => cases hPart
  | number n =>
      cases hPart
      cases h with
      | number hNumber => exact ⟨_, hNumber, .self⟩
  | string s => cases hPart
  | array items ih =>
      cases hPart with
      | item hItem hPart =>
          cases h with
          | array hItems =>
              obtain ⟨i, rfl⟩ := List.mem_iff_get.mp hItem
              obtain ⟨hLength, hGet⟩ := List.forall₂_iff_get.mp hItems
              have hi := Nat.lt_of_lt_of_eq i.isLt hLength
              obtain ⟨n, hNumber, hFound⟩ := ih _ hItem (hGet i i.isLt hi) hPart
              exact ⟨n, hNumber, .item (List.get_mem _ _) hFound⟩
  | object members ih =>
      cases hPart with
      | member hMember hPart =>
          cases h with
          | object hKeys hValues =>
              obtain ⟨other, hOther⟩ := exists_member hKeys hMember
              obtain ⟨n, hNumber, hFound⟩ := ih _ _ hMember (hValues _ _ _ hMember hOther) hPart
              exact ⟨n, hNumber, .member hOther hFound⟩

end Json

end LedgerSigning
