import SchemaLang.Proofs.DeclaredTypes
import SchemaLang.Proofs.LiteralTexts

/-!
# Where lines break

A line of a source breaks in blanks or in a comment. Every other lexeme stands on one
line, a string too, since a string ends before a line break; and so does a construct
over one lexeme. What stands for something has the characters of names only, so no
name that is found goes across lines.
-/

set_option autoImplicit false

namespace SchemaLang

/-! ## Texts on one line -/

def OneLine (text : String) : Prop := '\n' ∉ text.toList

instance (text : String) : Decidable (OneLine text) := inferInstanceAs (Decidable (_ ∉ _))

namespace OneLine

theorem of_not_white {s : String} (h : ∀ c ∈ s.toList, Text.isWhite c = false) : OneLine s :=
  fun hbreak => absurd (h '\n' hbreak) (by decide)

theorem intercalate {separator : String} {pieces : List String} (hseparator : OneLine separator)
    (h : ∀ piece ∈ pieces, OneLine piece) : OneLine (separator.intercalate pieces) := by
  induction pieces with
  | nil => simp [OneLine]
  | cons first rest ih =>
    obtain ⟨hfirst, hrest⟩ := List.forall_mem_cons.mp h
    cases rest with
    | nil => simpa [OneLine, String.toList_intercalate, List.intercalate] using hfirst
    | cons second rest =>
      have htail := ih hrest
      rw [OneLine, String.toList_intercalate] at htail ⊢
      rw [List.map_cons, List.map_cons, List.intercalate_cons_cons]
      simpa [OneLine, hfirst, hseparator] using ⟨hfirst, hseparator, htail⟩

theorem repr (n : Nat) : OneLine n.repr := by
  intro hbreak
  rw [Nat.toList_repr] at hbreak
  exact absurd (Nat.isDigit_of_mem_toDigits (by decide) (by decide) hbreak) (by decide)

end OneLine

theorem IsName.oneLine {name : String} (h : IsName name) : OneLine name :=
  .of_not_white fun c hc => Scan.isWhite_of_spellsName (h.spells c hc)

/-! ## Lexemes -/

namespace Scan

theorem not_mem_runLength {p : Char → Bool} {c : Char} (hc : p c = false) (cs : List Char) :
    c ∉ cs.take (runLength p cs) := by
  intro h
  rw [of_mem_take_runLength h] at hc
  cases hc

theorem not_mem_stringTail (cs : List Char) : '\n' ∉ cs.take (stringTail cs) := by
  induction cs with
  | nil => simp
  | cons c cs ih =>
    rw [stringTail]
    split
    · rename_i hquote
      subst hquote
      simp
    · split
      · simp
      · rename_i hbreak
        rw [List.take_succ_cons, List.mem_cons, not_or]
        exact ⟨Ne.symm hbreak, ih⟩

theorem not_mem_lead {c : Char} {cs : List Char} (h : (lead c cs).1.isTrivia = false) :
    '\n' ∉ c :: cs.take (lead c cs).2 := by
  have hwhite : Text.isWhite c = false := isWhite_of_lead fun hkind => by
    rw [hkind] at h
    cases h
  have hc : '\n' ≠ c := fun heq => by
    rw [← heq] at hwhite
    revert hwhite
    decide
  have hword {cs : List Char} (hcs : ∀ x ∈ cs, Text.isWhite x = false) : '\n' ∉ cs :=
    fun hbreak => absurd (hcs '\n' hbreak) (by decide)
  rcases lead_word c cs with hlead | ⟨n, -, hlead⟩ | ⟨n, -, hname, hlead⟩ | ⟨-, hlead⟩
  · simp only [List.mem_cons, List.not_mem_nil, or_false] at hlead
    rcases hlead with hlead | hlead <;> rw [hlead] at h <;> cases h
  · exact hword (lead_of_boolean (by rw [hlead])).not_white
  · rw [hlead]
    exact hword fun x hx => isWhite_of_spellsName (spellsName_of_nameTail? hname x hx)
  · rw [List.mem_cons, not_or]
    refine ⟨hc, ?_⟩
    -- the rules that are left: a number, a string, and single characters
    unfold lead at hlead ⊢
    split at hlead
    · simp at hlead
    rw [if_neg (by assumption)]
    split at hlead
    · simp at hlead
    split at hlead
    · simp at hlead
    split at hlead
    · simp at hlead
    split
    · exact not_mem_runLength (by decide) cs
    split
    · exact not_mem_stringTail cs
    · simp

end Scan

theorem oneLine_of_mem_lexemes {source : String} {l : Lexeme} (hl : l ∈ lexemes source)
    (h : l.isTrivia = false) : OneLine l.text := by
  obtain ⟨c, rest, rfl⟩ := Scan.exists_lead_of_mem_scan hl
  rw [OneLine, String.toList_ofList]
  exact Scan.not_mem_lead h

/-! ## Constructs and names -/

namespace SchemaFile

variable {file : SchemaFile} {n : Node}

theorem oneLine_of_isLexeme (hn : n ∈ file.root.inside.preorder)
    (hkind : n.kind.isLexeme = true) : OneLine (file.text n) := by
  obtain ⟨l, hleaves, -⟩ := file.leaves_of_isLexeme hn hkind
  obtain ⟨hl, htext⟩ :=
    file.text_of_leaves_eq_singleton hn (NodeKind.isLexeme_ne_error hkind) hleaves
  rw [htext]
  have hmem : l ∈ significant n.lexemes := by
    rw [n.significant_lexemes, hleaves]
    exact List.mem_singleton_self l
  exact oneLine_of_mem_lexemes hl (isTrivia_of_mem_significant hmem)

theorem oneLine_of_child {m : Node} (hn : n ∈ file.nodes) (hm : m ∈ n.children)
    (hkind : m.kind.isLexeme = true) : OneLine (file.text m) :=
  oneLine_of_isLexeme (file.mem_of_mem_children hn hm) hkind

theorem oneLine_of_firstChild? {m : Node} {kind : NodeKind} (hn : n ∈ file.nodes)
    (hkind : kind.isLexeme = true) (h : n.firstChild? kind = some m) : OneLine (file.text m) := by
  have hfound := List.find?_some h
  exact oneLine_of_child hn (List.mem_of_find?_eq_some h) (by rwa [eq_of_beq hfound])

theorem oneLine_of_fieldName? (hn : n ∈ file.nodes) : OneLine ((file.fieldName? n).getD "") := by
  rw [fieldName?]
  cases h : n.firstChild? .fieldName with
  | none => simp [OneLine]
  | some m => exact oneLine_of_firstChild? hn rfl h

end SchemaFile

namespace DeclaredType

variable {file : SchemaFile} {s : Site}

theorem oneLine_of_fieldType (h : file.Has s) (hkind : s.kind = .fieldType) :
    OneLine (DeclaredType.of file s).base := by
  have hmem := file.mem_of_kind_ne h.1 (by
    rw [show s.node.kind = .fieldType from hkind]
    decide)
  obtain ⟨name, parameters, hchildren, hname, -⟩ := file.fieldType_children hmem hkind
  have hbase : (s.node.firstChild? .typeName).getD s.node = name := by
    simp [Node.firstChild?, hchildren, hname]
  rw [DeclaredType.of, if_pos hkind, hbase]
  exact SchemaFile.oneLine_of_child h.1 (by simp [hchildren]) (by rw [hname]; rfl)

theorem Sound.oneLine_element {t : DeclaredType} (h : t.Sound) {p : Site} (hp : p ∈ t.parameters) :
    OneLine (DeclaredType.of t.file p).base := by
  obtain ⟨hhas, hkind⟩ := h.parameter p hp
  have hmem := t.file.mem_of_kind_ne hhas.1 (by
    rw [show p.node.kind = .typeParameter from hkind]
    decide)
  rw [DeclaredType.of, if_neg (by simp [hkind])]
  refine SchemaFile.oneLine_of_isLexeme hmem ?_
  rw [show p.node.kind = .typeParameter from hkind]
  rfl

end DeclaredType

end SchemaLang
