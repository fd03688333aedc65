import SchemaLang.Check
import SchemaLang.Proofs.Ancestry
import SchemaLang.Proofs.Inhabitants

/-!
# Whole values and their parts

A value that was not cut short begins with the lexeme of its kind. So one whose
text begins with an opening bracket is a list or a map, its text ends with the
closing bracket, and its parts are whole values again or entries of two.
-/

set_option autoImplicit false

namespace SchemaLang

/-! ## How values begin -/

namespace Bracketed

def token : Bracketed → TokenKind
  | list => .lbracket
  | map => .lbrace

def node : Bracketed → NodeKind
  | list => .list
  | map => .map

end Bracketed

theorem Scan.booleanTail?_opener (form : Bracketed) (cs : List Char) :
    Scan.booleanTail? form.opener cs = none := by
  have htrue : "true".length = 4 := rfl
  have hfalse : "false".length = 5 := rfl
  cases form <;> simp [Scan.booleanTail?, Scan.wordLength?, Bracketed.opener, htrue, hfalse]

theorem Scan.lead_opener (form : Bracketed) (cs : List Char) :
    (Scan.lead form.opener cs).1 = form.token := by
  rw [Scan.lead, booleanTail?_opener]
  cases form <;> simp [Bracketed.opener, Bracketed.token, Text.isWhite, Scan.commentTail?,
    Scan.nameTail?, Scan.startsName, Scan.punctuation?]

theorem Scan.eq_of_punctuation? {c d : Char} {kind : TokenKind}
    (hc : Scan.punctuation? c = some kind) (hd : Scan.punctuation? d = some kind) : c = d := by
  unfold Scan.punctuation? at hc hd
  split at hc <;> cases hc <;> split at hd <;> first | rfl | cases hd

theorem kind_of_opener {source : String} {l : Lexeme} (hl : l ∈ lexemes source) {form : Bracketed}
    (h : l.text.toList.head? = some form.opener) : l.kind = form.token := by
  obtain ⟨c, rest, rfl⟩ := Scan.exists_lead_of_mem_scan hl
  rw [String.toList_ofList, List.head?_cons, Option.some.injEq] at h
  rw [h]
  exact Scan.lead_opener form rest

theorem Text.head?_trim {s : String} {c : Char} (hc : s.toList.head? = some c)
    (hwhite : Text.isWhite c = false) : (Text.trim s).toList.head? = some c := by
  obtain ⟨rest, hrest⟩ := List.head?_eq_some_iff.mp hc
  have hstart : Text.trimStart s.toList = c :: rest := by
    rw [Text.trimStart, hrest, List.dropWhile_cons_of_neg (by simp [hwhite])]
  have hend (cs : List Char) : ∃ kept, Text.trimEnd (c :: cs) = c :: kept := by
    rw [Text.trimEnd, List.reverse_cons, List.dropWhile_append]
    split
    · exact ⟨[], by simp [hwhite]⟩
    · exact ⟨(cs.reverse.dropWhile Text.isWhite).reverse, by simp⟩
  obtain ⟨kept, hkept⟩ := hend rest
  rw [Text.trim, hstart, hkept, String.toList_ofList, List.head?_cons]

/-! ## Whole values -/

theorem NodeKind.isSome_opener? {kind : NodeKind} (h : kind.isValue = true) :
    kind.opener?.isSome = true := by
  cases kind <;> first | rfl | cases h

theorem NodeKind.eq_of_opener? {kind : NodeKind} {form : Bracketed}
    (h : kind.opener? = some form.token) : kind = form.node := by
  cases form <;> cases kind <;> first | rfl | cases h

structure WholeValue (file : SchemaFile) (s : Site) : Prop where
  site : s ∈ file.sites
  intact : s.node.Intact
  value : s.kind.isValue = true

namespace WholeValue

variable {file : SchemaFile} {s : Site} (h : WholeValue file s)
include h

theorem mem : s.node ∈ file.root.inside.preorder := by
  refine file.mem_of_kind_ne (SchemaFile.has_of_mem_sites h.site).1 fun hroot => ?_
  have hvalue := h.value
  rw [Site.kind, hroot] at hvalue
  cases hvalue

theorem ne_error : s.node.kind ≠ .error := fun herror => by
  have hvalue := h.value
  rw [Site.kind, herror] at hvalue
  cases hvalue

/-- A value begins with a lexeme of the kind that its own kind has in front. -/
theorem exists_opener : ∃ l c, l ∈ lexemes file.source ∧ s.node.kind.opener? = some l.kind ∧
    l.text.toList.head? = some c ∧ Text.isWhite c = false ∧
    (Text.trim (file.text s.node)).toList.head? = some c := by
  obtain ⟨opener, hopener⟩ := Option.isSome_iff_exists.mp (NodeKind.isSome_opener? h.value)
  obtain ⟨l, hl, rfl⟩ := file.head_of_opener? h.mem hopener
  have hmem := (file.spelling_of_construct h.mem h.ne_error).1 l (by
    refine List.mem_of_mem_filter (p := fun l => !l.isTrivia) ?_
    rw [← significant, s.node.significant_lexemes]
    exact List.mem_of_head? hl)
  have hsig : l.isTrivia = false := by
    have hl' := List.mem_of_head? hl
    rw [← s.node.significant_lexemes] at hl'
    exact isTrivia_of_mem_significant hl'
  obtain ⟨c, hc, hwhite⟩ := head_of_mem_lexemes hmem hsig
  have hhead := (file.ends_of_construct h.mem h.ne_error).1
  rw [hl, Option.bind_some, hc] at hhead
  exact ⟨l, c, hmem, hopener, hc, hwhite, Text.head?_trim hhead hwhite⟩

/-- A value that begins like a list or a map is one, and ends like one. -/
theorem bracketed {form : Bracketed}
    (hhead : (Text.trim (file.text s.node)).toList.head? = some form.opener) :
    s.kind = form.node ∧ (Text.trim (file.text s.node)).toList.getLast? = some form.closer := by
  obtain ⟨l, c, hl, hopener, hc, -, hfirst⟩ := h.exists_opener
  rw [hfirst, ← hc] at hhead
  have hkind : s.node.kind = form.node := by
    rw [kind_of_opener hl hhead] at hopener
    exact NodeKind.eq_of_opener? hopener
  refine ⟨hkind, ?_⟩
  have hlast {closer : TokenKind} (hcloser : form.node.closer? = some closer)
      (hchar : ∀ c, Scan.punctuation? c = some closer → c = form.closer) :
      (Text.trim (file.text s.node)).toList.getLast? = some form.closer := by
    obtain ⟨henclosed, hends⟩ := file.enclosed_of_intact h.mem h.intact (hkind ▸ hcloser)
    rw [henclosed.trim]
    obtain ⟨c, hc, hpunctuation⟩ := Option.bind_eq_some_iff.mp hends
    rw [hc, hchar c hpunctuation]
  cases form with
  | list => exact hlast rfl fun c hc => Scan.eq_of_punctuation? hc rfl
  | map => exact hlast rfl fun c hc => Scan.eq_of_punctuation? hc rfl

end WholeValue

/-! ## Parts -/

namespace Checker

variable {file : SchemaFile} {s : Site}

theorem parts_eq_children (hn : s.node ∈ file.root.inside.preorder) (h : s.node.Intact) :
    parts s = s.children := by
  have hvalues : s.node.values = s.node.children := by
    refine List.filter_eq_self.mpr fun c hc => ?_
    have hfault : (c.kind == .error) = false := (file.intact_of_mem_children hn h hc).2
    rw [bne, hfault]
    rfl
  rw [parts, hvalues, Site.children]

theorem wholeValue_of_mem_parts (hs : s ∈ file.sites) (h : s.node.Intact)
    (hkind : s.kind = .list ∨ s.kind = .arguments ∨ s.kind = .mapEntry) :
    ∀ p ∈ parts s, WholeValue file p := by
  have hn := file.mem_of_kind_ne (file.node_mem_nodes hs) fun hroot => by
    rw [Site.kind, hroot] at hkind
    simp at hkind
  rw [parts_eq_children hn h]
  intro p hp
  obtain ⟨c, hc, rfl⟩ := List.mem_map.mp hp
  obtain ⟨hintact, hvalue⟩ := file.values_of_intact hn h hkind c hc
  exact ⟨file.child_mem_sites hs hc, hintact, hvalue⟩

/-- The parts of a whole map are entries, each of a key and a value. -/
theorem parts_of_mem_entries (h : WholeValue file s) (hkind : s.kind = .map) :
    ∀ e ∈ parts s, e.kind = .mapEntry ∧ ∃ key value, parts e = [key, value] ∧
      WholeValue file key ∧ WholeValue file value ∧ key.node ∈ e.node.children ∧
      value.node ∈ e.node.children := by
  rw [parts_eq_children h.mem h.intact]
  intro e he
  obtain ⟨c, hc, rfl⟩ := List.mem_map.mp he
  obtain ⟨hintact, hentry⟩ := file.entries_of_intact h.mem h.intact hkind c hc
  have hsite := file.child_mem_sites h.site hc
  have hmem := file.mem_of_mem_children (List.mem_cons_of_mem _ h.mem) hc
  obtain ⟨key, value, hchildren, ⟨hkey, hkeyValue⟩, hvalue, hvalueValue⟩ :=
    file.entry_children hmem hintact hentry
  have hpart {d : Node} (hd : d ∈ c.children) (hdi : d.Intact) (hdv : d.kind.isValue = true) :
      WholeValue file ((s.child c).child d) := ⟨file.child_mem_sites hsite hd, hdi, hdv⟩
  refine ⟨hentry, (s.child c).child key, (s.child c).child value, ?_,
    hpart (by simp [hchildren]) hkey hkeyValue, hpart (by simp [hchildren]) hvalue hvalueValue,
    by simp [Site.child, hchildren], by simp [Site.child, hchildren]⟩
  rw [parts_eq_children hmem hintact, Site.children, show (s.child c).node = c from rfl, hchildren]
  rfl

end Checker

end SchemaLang
