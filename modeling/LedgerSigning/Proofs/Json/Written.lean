import LedgerSigning.Proofs.Json.Document
import LedgerSigning.Proofs.Json.Quoted

/-! Written documents are read back. The text of a document in any style whose gaps are white
space is read as one tree, which the document and the layout of its numbers determine. -/
namespace LedgerSigning

namespace Writer

/-- Texts with a comma and a gap before each. -/
def separated (inner : List Char) (texts : List (List Char)) : List Char :=
  texts.flatMap fun text => ',' :: inner ++ text

@[simp] theorem separated_nil (inner : List Char) : separated inner [] = [] := rfl

@[simp] theorem separated_cons (inner text : List Char) (texts : List (List Char)) :
    separated inner (text :: texts) = ',' :: (inner ++ (text ++ separated inner texts)) := by
  simp [separated]

/-- Texts between brackets. -/
def enclosed (opening closing : Char) (inner outer : List Char) : List (List Char) → List Char
  | [] => [opening, closing]
  | text :: texts =>
    opening :: (inner ++ (text ++ (separated inner texts ++ (outer ++ [closing]))))

/-- A key, the mark after it, and its value. -/
def memberText (style : Style) (depth : Nat) (m : String × Json) : List Char :=
  quoted m.1 ++ (style.colon ++ write style depth m.2)

theorem write_array (style : Style) (depth : Nat) (items : List Json) :
    write style depth (.array items) =
      enclosed '[' ']' (style.gap (depth + 1)) (style.gap depth)
        (items.map (write style (depth + 1))) := by
  have hItems (rest : List Json) : write.items style depth rest =
      separated (style.gap (depth + 1)) (rest.map (write style (depth + 1))) := by
    induction rest with
    | nil => rfl
    | cons item rest ih => simp [write.items, ih]
  cases items with
  | nil => rfl
  | cons item rest => simp [write, hItems, enclosed]

theorem write_object (style : Style) (depth : Nat) (members : List (String × Json)) :
    write style depth (.object members) =
      enclosed '\x7b' '\x7d' (style.gap (depth + 1)) (style.gap depth)
        (members.map (memberText style (depth + 1))) := by
  have hMembers (rest : List (String × Json)) : write.members style depth rest =
      separated (style.gap (depth + 1)) (rest.map (memberText style (depth + 1))) := by
    induction rest with
    | nil => rfl
    | cons m rest ih => simp [write.members, ih, memberText]
  cases members with
  | nil => rfl
  | cons m rest => simp [write, hMembers, enclosed, memberText]

/-- The gaps of a style are white space, and its numbers are read back. -/
structure Style.Readable (style : Style) : Prop where
  gap : ∀ depth, ∀ c ∈ style.gap depth, Reader.isSpace c = true
  colon : ∃ space, style.colon = ':' :: space ∧ ∀ c ∈ space, Reader.isSpace c = true
  layout : style.layout.Bounded

theorem readable_canonical : canonical.Readable where
  gap _ _ hc := nomatch hc
  colon := ⟨[], rfl, by simp⟩
  layout := Layout.bounded_canonical

theorem readable_compact : compact.Readable where
  gap _ _ hc := nomatch hc
  colon := ⟨[], rfl, by simp⟩
  layout := Layout.bounded_document

theorem readable_pretty : pretty.Readable where
  gap depth c hc := by
    rcases List.mem_cons.mp hc with rfl | hSpace
    · rfl
    · rw [List.eq_of_mem_replicate hSpace]
      rfl
  colon := ⟨[' '], rfl, by simp [Reader.isSpace]⟩
  layout := Layout.bounded_document

end Writer

namespace Json

/-- The tree that the text of a document is read as. -/
def tree (l : Layout) : Json → Tree
  | .null => .null
  | .bool b => .bool b
  | .number n => n.token l
  | .string s => .string s
  | .array items => .array (itemTrees items)
  | .object members => .object (memberTrees members)
where
  itemTrees : List Json → List Tree
    | [] => []
    | item :: rest => tree l item :: itemTrees rest
  memberTrees : List (String × Json) → List (Option String × Tree)
    | [] => []
    | (key, value) :: rest => (some key, tree l value) :: memberTrees rest

theorem tree_array (l : Layout) (items : List Json) :
    (Json.array items).tree l = .array (items.map (tree l)) := by
  have hItems (items : List Json) : tree.itemTrees l items = items.map (tree l) := by
    induction items with
    | nil => rfl
    | cons item rest ih => rw [tree.itemTrees, ih, List.map_cons]
  rw [tree, hItems]

theorem tree_object (l : Layout) (members : List (String × Json)) :
    (Json.object members).tree l = .object (members.map fun m => (some m.1, m.2.tree l)) := by
  have hMembers (members : List (String × Json)) :
      tree.memberTrees l members = members.map fun m => (some m.1, m.2.tree l) := by
    induction members with
    | nil => rfl
    | cons m rest ih =>
        obtain ⟨key, value⟩ := m
        rw [tree.memberTrees, ih, List.map_cons]
  rw [tree, hMembers]

end Json

namespace Reader

open Writer

theorem skip_cons {c : Char} (hSpace : isSpace c = false) (rest : List Char) :
    skip (c :: rest) = c :: rest := by
  simp [skip, hSpace]

theorem skip_append {space : List Char} (hSpace : ∀ c ∈ space, isSpace c = true)
    (rest : List Char) : skip (space ++ rest) = skip rest :=
  List.dropWhile_append_of_pos hSpace

/-- White space before a value changes nothing. -/
theorem value?_append {space : List Char} (hSpace : ∀ c ∈ space, isSpace c = true) (fuel : Nat)
    (text : List Char) : value? fuel (space ++ text) = value? fuel text := by
  cases fuel with
  | zero => rfl
  | succ fuel => rw [value?, value?, skip_append hSpace]

/-- White space before a mark that ends numbers ends them too. -/
theorem ends_append {space : List Char} (hSpace : ∀ c ∈ space, isSpace c = true) {rest : List Char}
    (hEnds : Ends rest) : Ends (space ++ rest) := by
  cases space with
  | nil => exact hEnds
  | cons c space =>
      have hBlank := hSpace c (by simp)
      simp only [isSpace, Bool.or_eq_true, beq_iff_eq] at hBlank
      rcases hBlank with ((rfl | rfl) | rfl) | rfl <;>
        exact ends_cons (by decide) (by decide) (by decide) (by decide)

/-- A number is read where a value is due. -/
theorem value?_number {l : Layout} (hBounded : l.Bounded) (n : Number) (fuel : Nat)
    {rest : List Char} (hEnds : Ends rest) :
    value? (fuel + 1) (Writer.number l n ++ rest) = some (n.token l, rest) := by
  have hRead := numeral?_number hBounded n hEnds
  obtain ⟨c, tail, hText, hHead⟩ := number_head hBounded n
  have hMark : ∀ d, d ≠ '-' → d.isDigit = false → c ≠ d := by
    rintro d hMinus hDigit rfl
    rcases hHead with hHead | hHead
    · exact hMinus hHead
    · rw [hHead] at hDigit
      exact absurd hDigit (by decide)
  have hSpace : isSpace c = false := by
    simp only [isSpace, Bool.or_eq_false_iff, beq_eq_false_iff_ne]
    exact ⟨⟨⟨hMark _ (by decide) (by decide), hMark _ (by decide) (by decide)⟩,
      hMark _ (by decide) (by decide)⟩, hMark _ (by decide) (by decide)⟩
  rw [hText, List.cons_append] at hRead ⊢
  rw [value?, skip_cons hSpace]
  simp only [hMark '"' (by decide) (by decide), hMark '[' (by decide) (by decide),
    hMark '\x7b' (by decide) (by decide), hMark 'n' (by decide) (by decide),
    hMark 't' (by decide) (by decide), hMark 'f' (by decide) (by decide), if_false]
  exact hRead

theorem quoted_append (s : String) (rest : List Char) :
    quoted s ++ rest = '"' :: (s.toList.flatMap escape ++ '"' :: rest) := by
  simp [quoted]

theorem value?_string (s : String) (fuel : Nat) (rest : List Char) :
    value? (fuel + 1) (quoted s ++ rest) = some (.string (some s), rest) := by
  rw [quoted_append, value?, skip_cons (by decide)]
  simp [string?_quoted]

/-- A text is read as a tree, whatever follows it that does not continue a number, in two steps
for each of its characters. -/
def Reads (text : List Char) (tree : Tree) : Prop :=
  ∀ fuel rest, 2 * text.length ≤ fuel → Ends rest → value? fuel (text ++ rest) = some (tree, rest)

/-- No value starts with a closing bracket. -/
theorem Reads.skip_ne {text rest : List Char} {tree : Tree} (h : Reads text tree)
    (hEnds : Ends rest) (tail : List Char) : skip (text ++ rest) ≠ ']' :: tail := by
  intro hSkip
  have hRead := h (2 * text.length + 1) rest (by omega) hEnds
  rw [value?, hSkip] at hRead
  simp [numeral?, unsigned?, whole?, row?] at hRead

theorem ends_comma (rest : List Char) : Ends (',' :: rest) :=
  ends_cons (by decide) (by decide) (by decide) (by decide)

theorem ends_bracket (rest : List Char) : Ends (']' :: rest) :=
  ends_cons (by decide) (by decide) (by decide) (by decide)

theorem ends_brace (rest : List Char) : Ends ('\x7d' :: rest) :=
  ends_cons (by decide) (by decide) (by decide) (by decide)

variable {style : Style} {depth : Nat} {inner outer : List Char}

theorem items?_append (hInner : ∀ c ∈ inner, isSpace c = true) (fuel : Nat) (text : List Char) :
    items? fuel (inner ++ text) = items? fuel text := by
  cases fuel with
  | zero => rfl
  | succ fuel => rw [items?, items?, value?_append hInner]

/-- What follows the first text between brackets does not continue a number. -/
theorem ends_separated (inner : List Char) (hOuter : ∀ c ∈ outer, isSpace c = true)
    (texts : List (List Char)) {rest : List Char} (hEnds : Ends rest) :
    Ends (separated inner texts ++ (outer ++ rest)) := by
  cases texts with
  | nil => exact ends_append hOuter hEnds
  | cons text texts =>
      rw [separated_cons, List.cons_append]
      exact ends_comma _

/-- Items between commas are read up to the closing bracket. -/
theorem items?_written (hInner : ∀ c ∈ inner, isSpace c = true)
    (hOuter : ∀ c ∈ outer, isSpace c = true) (item : Json) (items : List Json)
    (hReads : ∀ d ∈ item :: items, Reads (write style depth d) (d.tree style.layout))
    (fuel : Nat) (rest : List Char)
    (hFuel : 2 * (write style depth item ++
      separated inner (items.map (write style depth))).length < fuel) :
    items? fuel (write style depth item ++ (separated inner (items.map (write style depth)) ++
        (outer ++ ']' :: rest))) = some ((item :: items).map (Json.tree style.layout), rest) := by
  have hBracket : isSpace ']' = false := by decide
  have hComma : isSpace ',' = false := by decide
  induction items generalizing item fuel with
  | nil =>
      obtain ⟨fuel, rfl⟩ := Nat.exists_eq_add_one.mpr (by omega : 0 < fuel)
      simp only [List.map_nil, separated_nil, List.append_nil] at hFuel
      have hRead := hReads item (by simp) fuel (outer ++ ']' :: rest) (by omega)
        (ends_append hOuter (ends_bracket rest))
      simp [items?, hRead, skip_append hOuter, skip_cons hBracket]
  | cons next items ih =>
      obtain ⟨fuel, rfl⟩ := Nat.exists_eq_add_one.mpr (by omega : 0 < fuel)
      simp only [List.map_cons, separated_cons, List.length_append, List.length_cons] at hFuel
      have hNext := ih next (fun d hd => hReads d (List.mem_cons_of_mem _ hd)) fuel
        (by rw [List.length_append]; omega)
      have hRead := hReads item (by simp) fuel (',' :: (inner ++ (write style depth next ++
        (separated inner (items.map (write style depth)) ++ (outer ++ ']' :: rest))))) (by omega)
        (ends_comma _)
      simp only [List.map_cons, separated_cons, List.cons_append, List.append_assoc]
      simp [items?, hRead, skip_cons hComma, items?_append hInner, hNext]

/-- The items of an array are read between its brackets. -/
theorem reads_array (hStyle : style.Readable) {items : List Json}
    (hReads : ∀ d ∈ items, Reads (write style (depth + 1) d) (d.tree style.layout)) :
    Reads (write style depth (.array items)) ((Json.array items).tree style.layout) := by
  intro fuel rest hFuel hEnds
  rw [write_array] at hFuel ⊢
  rw [Json.tree_array]
  cases items with
  | nil =>
      have hPos : 0 < fuel := by simp [enclosed] at hFuel; omega
      obtain ⟨fuel, rfl⟩ := Nat.exists_eq_add_one.mpr hPos
      rfl
  | cons item items =>
      simp only [List.map_cons, enclosed, List.length_append, List.length_cons] at hFuel
      obtain ⟨fuel, rfl⟩ := Nat.exists_eq_add_one.mpr (by omega : 0 < fuel)
      have hItems := items?_written (hStyle.gap (depth + 1)) (hStyle.gap depth) item items hReads
        fuel rest (by rw [List.length_append]; omega)
      have hFirst := (hReads item (by simp)).skip_ne (ends_separated (style.gap (depth + 1))
        (hStyle.gap depth) (items.map (write style (depth + 1))) (ends_bracket rest))
      simp only [List.map_cons, enclosed, List.cons_append, List.append_assoc, List.nil_append]
      rw [value?, skip_cons (show isSpace '[' = false by decide)]
      simp only [Char.reduceEq, if_false, if_true]
      split
      next hClose =>
        rw [skip_append (hStyle.gap (depth + 1))] at hClose
        exact absurd hClose (hFirst _)
      next =>
        rw [items?_append (hStyle.gap (depth + 1)), hItems]
        rfl

theorem members?_append (hInner : ∀ c ∈ inner, isSpace c = true) (fuel : Nat)
    (text : List Char) : members? fuel (inner ++ text) = members? fuel text := by
  cases fuel with
  | zero => rfl
  | succ fuel => rw [members?, members?, skip_append hInner]

/-- What is read once a member is: more members after a comma, or the end of the object. -/
def afterMember (fuel : Nat) (member : Option String × Tree) (rest : List Char) :
    Option (List (Option String × Tree) × List Char) :=
  match skip rest with
  | ',' :: rest => do
    let (members, rest) ← members? fuel rest
    some (member :: members, rest)
  | '\x7d' :: rest => some ([member], rest)
  | _ => none

/-- A member is read up to what follows its value. -/
theorem members?_member (hStyle : style.Readable) {m : String × Json}
    (hReads : Reads (write style depth m.2) (m.2.tree style.layout)) (fuel : Nat)
    {rest : List Char} (hFuel : 2 * (memberText style depth m).length ≤ fuel) (hEnds : Ends rest) :
    members? (fuel + 1) (memberText style depth m ++ rest) =
      afterMember fuel (some m.1, m.2.tree style.layout) rest := by
  obtain ⟨space, hColon, hSpace⟩ := hStyle.colon
  simp only [memberText, List.length_append] at hFuel
  have hValue := hReads fuel rest (by omega) hEnds
  rw [memberText, List.append_assoc, quoted_append, members?, skip_cons (by decide), hColon,
    List.append_assoc, List.cons_append]
  simp only [string?_quoted, Option.bind_eq_bind, Option.bind_some,
    skip_cons (show isSpace ':' = false by decide), value?_append hSpace, hValue]
  rfl

/-- Members between commas are read up to the closing brace. -/
theorem members?_written (hStyle : style.Readable) (hInner : ∀ c ∈ inner, isSpace c = true)
    (hOuter : ∀ c ∈ outer, isSpace c = true) (m : String × Json) (members : List (String × Json))
    (hReads : ∀ n ∈ m :: members, Reads (write style depth n.2) (n.2.tree style.layout))
    (fuel : Nat) (rest : List Char)
    (hFuel : 2 * (memberText style depth m ++
      separated inner (members.map (memberText style depth))).length < fuel) :
    members? fuel (memberText style depth m ++ (separated inner
        (members.map (memberText style depth)) ++ (outer ++ '\x7d' :: rest))) =
      some ((m :: members).map fun n => (some n.1, n.2.tree style.layout), rest) := by
  have hBrace : isSpace '\x7d' = false := by decide
  have hComma : isSpace ',' = false := by decide
  induction members generalizing m fuel with
  | nil =>
      obtain ⟨fuel, rfl⟩ := Nat.exists_eq_add_one.mpr (by omega : 0 < fuel)
      simp only [List.map_nil, separated_nil, List.append_nil] at hFuel
      have hRead := members?_member hStyle (hReads m (by simp)) fuel (by omega)
        (ends_append hOuter (ends_brace rest))
      simp only [List.map_nil, separated_nil, List.nil_append]
      rw [hRead, afterMember, skip_append hOuter, skip_cons hBrace]
      rfl
  | cons next members ih =>
      obtain ⟨fuel, rfl⟩ := Nat.exists_eq_add_one.mpr (by omega : 0 < fuel)
      simp only [List.map_cons, separated_cons, List.length_append, List.length_cons] at hFuel
      have hNext := ih next (fun n hn => hReads n (List.mem_cons_of_mem _ hn)) fuel
        (by rw [List.length_append]; omega)
      have hRead := members?_member hStyle (hReads m (by simp)) fuel (by omega)
        (ends_comma (inner ++ (memberText style depth next ++ (separated inner
          (members.map (memberText style depth)) ++ (outer ++ '\x7d' :: rest)))))
      simp only [List.map_cons, separated_cons, List.cons_append, List.append_assoc]
      rw [hRead, afterMember, skip_cons hComma]
      simp [members?_append hInner, hNext]

/-- The members of an object are read between its braces. -/
theorem reads_object (hStyle : style.Readable) {members : List (String × Json)}
    (hReads : ∀ m ∈ members, Reads (write style (depth + 1) m.2) (m.2.tree style.layout)) :
    Reads (write style depth (.object members)) ((Json.object members).tree style.layout) := by
  intro fuel rest hFuel hEnds
  rw [write_object] at hFuel ⊢
  rw [Json.tree_object]
  cases members with
  | nil =>
      have hPos : 0 < fuel := by simp [enclosed] at hFuel; omega
      obtain ⟨fuel, rfl⟩ := Nat.exists_eq_add_one.mpr hPos
      rfl
  | cons m members =>
      simp only [List.map_cons, enclosed, List.length_append, List.length_cons] at hFuel
      obtain ⟨fuel, rfl⟩ := Nat.exists_eq_add_one.mpr (by omega : 0 < fuel)
      have hMembers := members?_written hStyle (hStyle.gap (depth + 1)) (hStyle.gap depth) m members
        hReads fuel rest (by rw [List.length_append]; omega)
      simp only [List.map_cons, enclosed, List.cons_append, List.append_assoc, List.nil_append]
      rw [value?, skip_cons (show isSpace '\x7b' = false by decide)]
      simp only [Char.reduceEq, if_false, if_true]
      split
      next hClose =>
        rw [skip_append (hStyle.gap (depth + 1)), memberText, List.append_assoc, quoted_append,
          skip_cons (by decide)] at hClose
        exact absurd (List.cons.inj hClose).1 (by decide)
      next =>
        rw [members?_append (hStyle.gap (depth + 1)), hMembers]
        rfl

/-- The text of a document is read as its tree. -/
theorem reads_write (hStyle : style.Readable) (doc : Json) :
    Reads (write style depth doc) (doc.tree style.layout) := by
  induction doc generalizing depth with
  | null =>
      intro fuel rest hFuel hEnds
      have hPos : 0 < fuel := by simp [write] at hFuel; omega
      obtain ⟨fuel, rfl⟩ := Nat.exists_eq_add_one.mpr hPos
      rfl
  | bool b =>
      intro fuel rest hFuel hEnds
      have hPos : 0 < fuel := by cases b <;> simp [write] at hFuel <;> omega
      obtain ⟨fuel, rfl⟩ := Nat.exists_eq_add_one.mpr hPos
      cases b <;> rfl
  | number n =>
      intro fuel rest hFuel hEnds
      obtain ⟨c, tail, hText, -⟩ := number_head hStyle.layout n
      rw [write, hText, List.length_cons] at hFuel
      obtain ⟨fuel, rfl⟩ := Nat.exists_eq_add_one.mpr (by omega : 0 < fuel)
      exact value?_number hStyle.layout n fuel hEnds
  | string s =>
      intro fuel rest hFuel hEnds
      have hPos : 0 < fuel := by simp [write, quoted] at hFuel; omega
      obtain ⟨fuel, rfl⟩ := Nat.exists_eq_add_one.mpr hPos
      exact value?_string s fuel rest
  | array items ih => exact reads_array hStyle fun item hItem => ih item hItem
  | object members ih => exact reads_object hStyle fun m hMem => ih m.1 m.2 hMem

end Reader

/-- The text of a document is read as its tree, to the end. -/
theorem Tree.ofText?_write {style : Writer.Style} (hStyle : style.Readable) (doc : Json) :
    Tree.ofText? (Writer.write style 0 doc) = some (doc.tree style.layout) := by
  have hReads : Reader.Reads (Writer.write style 0 doc) (doc.tree style.layout) :=
    Reader.reads_write hStyle doc
  have hRead := hReads (2 * (Writer.write style 0 doc).length + 2) [] (by omega) Reader.ends_nil
  rw [List.append_nil] at hRead
  rw [Tree.ofText?, hRead]
  rfl

end LedgerSigning
