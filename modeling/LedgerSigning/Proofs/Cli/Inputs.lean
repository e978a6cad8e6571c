import LedgerSigning.Cli.Commands
import LedgerSigning.Proofs.Cli.Script
import LedgerSigning.Proofs.Text.Utf8
import LedgerSigning.Proofs.Transport

/-! What commands read before they do anything: settings, keys and documents. Reading leaves the
world as it is, and what is read as a document is in order. -/
namespace LedgerSigning

namespace Blank

theorem trim_eq_self {text : List Char} (h : ∀ c ∈ text, isBlank c = false) :
    trim text = text := by
  have hDrop {text : List Char} (h : ∀ c ∈ text, isBlank c = false) :
      text.dropWhile isBlank = text := by
    cases text with
    | nil => rfl
    | cons c rest => rw [List.dropWhile_cons, if_neg (by simp [h c List.mem_cons_self])]
  rw [trim, hDrop h, hDrop (fun c hc => h c (List.mem_reverse.mp hc)), List.reverse_reverse]

theorem not_blank_of_isDigit {c : Char} (h : Hex.isDigit c = true) : isBlank c = false := by
  have hBounds : 48 ≤ c.toNat ∧ c.toNat ≤ 102 := by
    simp only [Hex.isDigit, Bool.or_eq_true, Bool.and_eq_true, decide_eq_true_eq, Char.le_def,
      UInt32.le_iff_toNat_le] at h
    rcases h with (hDigit | hSmall) | hLarge
    · have hLimits := Reader.digit_bounds hDigit
      omega
    · exact ⟨(show 48 ≤ 97 by decide).trans hSmall.1, hSmall.2⟩
    · exact ⟨(show 48 ≤ 65 by decide).trans hLarge.1, hLarge.2.trans (by decide)⟩
  simp only [isBlank, ranges, List.any_cons, List.any_nil, Bool.or_false, Bool.or_eq_false_iff,
    Bool.and_eq_false_iff, decide_eq_false_iff_not]
  omega

end Blank

namespace Signed

/-- The value of a signed object is read from some tree. -/
theorem exists_of_ofTree? {α : Type} {read : Tree → Option α} {tree : Tree} {signed : Signed α}
    (h : ofTree? read tree = some signed) : ∃ part, read part = some signed.value := by
  obtain ⟨value, _, -, hValue, -⟩ := ofTree?_eq_some_iff.mp h
  exact ⟨value, hValue⟩

end Signed

namespace Commands

open Script

variable {α : Type} {read : Tree → Option α} {path : String} {world after : World}
  {invocation : Invocation} {settings : Settings}

theorem still_loadSettings (path home : Option String) : Still (loadSettings path home) := by
  have hLoad (path : String) : Still (readText path (.settingsUnread path) >>= fun text =>
      ofExcept ((Settings.ofText text).mapError (.settingsInvalid path))) :=
    (still_readText (by simp) _).bind fun _ => still_mapError (by simp) _
  unfold loadSettings
  split
  · exact hLoad _
  · refine still_isFile (fun found => ?_) _
    split_ifs
    · exact hLoad _
    · exact still_done _
  · exact still_done _

theorem checkKey_ne_modeUnset (source text : String) (cause : FileError) :
    checkKey source text ≠ .error (.modeUnset cause) := by
  simp only [checkKey]
  split_ifs <;> nofun

theorem still_signingKeys (invocation : Invocation) (settings : Settings) :
    Still (signingKeys invocation settings) := by
  unfold signingKeys
  split_ifs
  · split
    · exact still_fail nofun
    · exact (still_readText (by simp) _).bind fun _ =>
        (still_ofExcept (checkKey_ne_modeUnset _ _)).bind fun _ => still_done _
  · refine still_ofExcept fun cause hLate => ?_
    obtain ⟨-, text, -, -, -, hText⟩ := Except.mapM_eq_error_iff.mp hLate
    exact checkKey_ne_modeUnset _ text cause hText

/-- A text that is a private key is taken as the one key to sign with. -/
theorem run_signingKeys {key : String} {k : PrivateKey} (hKey : PrivateKey.ofText key = .ok k)
    (hGiven : invocation.keys = [key]) :
    (signingKeys invocation settings).run world = (.ok [key], world) := by
  have hShaped : PrivateKey.isShaped key = true := by
    by_contra hShape
    rw [PrivateKey.ofText, if_neg hShape] at hKey
    cases hKey
  have hDigits : ∀ c ∈ key.toList, Hex.isDigit c = true := by
    rw [PrivateKey.isShaped, isHexOf, Bool.and_eq_true, List.all_eq_true] at hShaped
    exact hShaped.2
  have hCheck : checkKey "--key" key = .ok key := by
    have hTrim : Blank.trim key.toList = key.toList :=
      Blank.trim_eq_self fun c hc => Blank.not_blank_of_isDigit (hDigits c hc)
    simp only [checkKey, hTrim, String.ofList_toList]
    rw [if_pos hShaped]
  rw [signingKeys, hGiven, if_neg (by simp), run_ofExcept]
  rw [List.mapM_cons, List.mapM_nil, hCheck]
  rfl

theorem still_signingKey (invocation : Invocation) (settings : Settings) :
    Still (signingKey invocation settings) := by
  refine (still_signingKeys invocation settings).bind fun keys => ?_
  split
  · exact still_done _
  · exact still_fail nofun

theorem still_readAs (read : Tree → Option α) (path : String) : Still (readAs read path) := by
  refine (still_readText (by simp) _).bind fun text => ?_
  split
  · exact still_done _
  · exact still_fail nofun

/-- A text in a file is read as it would be without the file. -/
theorem run_readAs {text : List Char} (hText : world.files.read path = .ok (Utf8.encode text)) :
    (readAs read path).run world = (match (Tree.ofText? text).bind read with
      | some value => .ok value
      | none => .error (.unparsed path), world) := by
  have hRun : (readText path (.unread path)).run world = (.ok (String.ofList text), world) := by
    rw [readText, run, hText]
    simp [Utf8.decode_encode, run]
  rw [readAs, run_bind, hRun]
  simp only [String.toList_ofList]
  cases (Tree.ofText? text).bind read <;> rfl

theorem exists_tree_of_readAs {value : α} (h : (readAs read path).run world = (.ok value, after)) :
    ∃ tree, read tree = some value := by
  obtain ⟨text, middle, -, hRest⟩ := run_bind_eq_ok_iff.mp h
  split at hRest
  · rename_i found hFound
    cases hRest
    obtain ⟨tree, -, hTree⟩ := Option.bind_eq_some_iff.mp hFound
    exact ⟨tree, hTree⟩
  · cases hRest

theorem ordered_of_readDocument {doc : Json}
    (h : (readDocument path).run world = (.ok doc, after)) : doc.Ordered := by
  obtain ⟨tree, hTree⟩ := exists_tree_of_readAs h
  exact Tree.toJson?_ordered hTree

/-- A signed document that is read from a file can be stored there again. -/
theorem wellFormed_of_readSigned {signed : Signed Json}
    (h : (readSigned path).run world = (.ok signed, after)) :
    signed.value.Ordered ∧ signed.value.depth ≤ Tree.maxLevels - 1 := by
  obtain ⟨tree, hTree⟩ := exists_tree_of_readAs h
  obtain ⟨part, hPart⟩ := Signed.exists_of_ofTree? hTree
  exact ⟨Tree.toJson?_ordered hPart, (Tree.toJson?_wellFormed hPart).2⟩

theorem ofText?_compact (doc : Json) :
    Tree.ofText? doc.compact.toList = some (doc.tree .document) := by
  rw [Json.compact, String.toList_ofList]
  exact Tree.ofText?_write Writer.readable_compact doc

theorem ofText?_pretty (doc : Json) :
    Tree.ofText? doc.pretty.toList = some (doc.tree .document) := by
  rw [Json.pretty, String.toList_ofList]
  exact Tree.ofText?_write Writer.readable_pretty doc

/-- A document that was written to a file is read there by its tree. -/
theorem run_readAs_pretty {doc : Json}
    (hText : world.files.read path = .ok (Utf8.encode doc.pretty.toList)) :
    (readAs read path).run world = (match read (doc.tree .document) with
      | some value => .ok value
      | none => .error (.unparsed path), world) := by
  rw [run_readAs hText, ofText?_pretty, Option.bind_some]

/-- A signed document is read from its file if it is nested one level less deep than the reader
goes, and is refused otherwise. -/
theorem run_readSigned {signed : Signed Json} (hOrdered : signed.value.Ordered)
    (hText : world.files.read path = .ok (Utf8.encode signed.document.pretty.toList)) :
    (readSigned path).run world =
      (if signed.value.depth ≤ Tree.maxLevels - 1 then .ok signed else .error (.unparsed path),
        world) := by
  rw [readSigned, run_readAs_pretty hText, Signed.ofTree?_document hOrdered]
  split_ifs <;> rfl

end Commands

end LedgerSigning
