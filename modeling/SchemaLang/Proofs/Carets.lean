import SchemaLang.Proofs.ArenaChecking
import SchemaLang.Proofs.Concatenation
import SchemaLang.Proofs.Excerpts
import SchemaLang.Proofs.Incompleteness
import SchemaLang.Proofs.Quotations
import SchemaLang.Text.Similarity

/-!
# Carets under what is reported

Everything that is found is about a node below the root, and such a node begins in front
of a lexeme that is neither blank nor comment, or at the very end behind one. So its range
begins on a line that stands in the source, and not with a line break, and the excerpt of
a diagnostic has the line and the carets below it.
-/

set_option autoImplicit false

namespace SchemaLang

/-! ## Where nodes begin -/

theorem leadingSize_of_labels {row : Row} (h : row.labels = []) :
    leadingSize row = totalSize (leadingTrivia row.leaves) := by
  induction row with
  | nil => rfl
  | leaf t next ih =>
    rw [leadingSize, Forest.leaves, leadingTrivia, List.takeWhile_cons]
    split
    · rw [totalSize, ih h]
      rfl
    · rfl
  | node => cases h

/-- What a node leaves out in front are all its blanks and comments there. -/
theorem leadingSize_of_shape {shape : Shape} {inside : Row} (hsnug : shape.Snug inside)
    (hbarren : shape.Barren inside) :
    leadingSize inside = totalSize (leadingTrivia inside.leaves) := by
  cases shape with
  | construct kind complete =>
    obtain ⟨⟨t, hhead, ht⟩, -⟩ := hsnug
    obtain ⟨rest, hrest⟩ := List.head?_eq_some_iff.mp hhead
    rw [leadingSize_eq_zero hhead ht, hrest, leadingTrivia,
      List.takeWhile_cons_of_neg (by simp [ht])]
    rfl
  | skipped fault => exact leadingSize_of_labels (hbarren rfl)

/-- Behind a node with nothing after it the text ends as well, in what a parser reads. -/
theorem exists_last_of_at {source : String} {before : List Lexeme} {shape : Shape} {inside : Row}
    (hat : (placedRow source).At before shape inside []) :
    ∃ l, (lexemes source).getLast? = some l ∧ l.isTrivia = false := by
  obtain ⟨after, hat, hafter⟩ := at_attach_of_placedRow hat
  obtain ⟨hkeeps, -⟩ := attach_keeps _ _ _ (significant_eq_leaves source)
  rw [(List.append_eq_nil_iff.mp hafter.symm).2, List.append_nil] at hkeeps
  have hne : lexemes source ≠ [] := by
    intro hnil
    have hrow : parseRow (significant []) = .nil := parseWith_nil _
    rw [hnil, hrow] at hat
    cases hat
  obtain ⟨l, hl⟩ := Option.ne_none_iff_exists'.mp (mt List.getLast?_eq_none_iff.mp hne)
  have hlast := (congrArg List.getLast? hkeeps).trans hl
  have hends := endsSignificant_attach _ _ _ (filled_parseWith _ _) (significant_eq_leaves source)
  exact ⟨l, hl, hends l hlast⟩

/-- What a parser reads does not begin with a line break. -/
theorem head?_characters {source : String} {ls : List Lexeme} (hls : ∀ l ∈ ls, l ∈ lexemes source)
    (h : ∀ l, ls.head? = some l → l.isTrivia = false) : (characters ls).head? ≠ some '\n' := by
  cases ls with
  | nil => simp [characters]
  | cons l rest =>
    obtain ⟨c, hc, hwhite⟩ := head_of_mem_lexemes (hls l List.mem_cons_self) (h l rfl)
    have hfirst : (characters (l :: rest)).head? = some c := by
      simp [characters, List.head?_append, hc]
    rw [hfirst]
    rintro ⟨⟩
    revert hwhite
    decide

theorem getLast?_of_mem_lexemes {source : String} {l : Lexeme} (hl : l ∈ lexemes source)
    (h : l.isTrivia = false) : ∃ c, l.text.toList.getLast? = some c ∧ c ≠ '\n' := by
  obtain ⟨c, hc, -⟩ := head_of_mem_lexemes hl h
  have hne : l.text.toList ≠ [] := fun hnil => by simp [hnil] at hc
  refine ⟨_, List.getLast?_eq_some_getLast hne, fun hbreak => ?_⟩
  exact oneLine_of_mem_lexemes hl h (hbreak ▸ List.getLast_mem hne)

theorem characters_ne_nil {source : String} {ls : List Lexeme} (hls : ∀ l ∈ ls, l ∈ lexemes source)
    (hne : ls ≠ []) : characters ls ≠ [] := by
  obtain ⟨l, rest, rfl⟩ := List.exists_cons_of_ne_nil hne
  have hpos := size_pos_of_mem_scan source.toList l (hls l List.mem_cons_self)
  intro hnil
  have hsize := utf8Len_characters (l :: rest)
  rw [hnil, totalSize, String.utf8Len_nil] at hsize
  omega

namespace SchemaFile

variable {file : SchemaFile} {n : Node}

/-- The lexemes that the range of a node covers begin with one that a parser reads. Where
there are none at the end of a text, the text ends with such a one. -/
theorem exists_covered (hn : n ∈ file.root.inside.preorder) : ∃ before held after,
    lexemes file.source = before ++ held ++ after ∧
      n.span = ⟨totalSize before, totalSize (before ++ held)⟩ ∧
      (∀ l, held.head? = some l → l.isTrivia = false) ∧
      (held ++ after = [] → ∃ l, before.getLast? = some l ∧ l.isTrivia = false) := by
  obtain ⟨before, inside, after, hat, -, hspan⟩ := file.exists_placed n hn
  have hlead := leadingSize_of_shape ((snug_placedRow file.source).at hat)
    (file.barren_placedRow.at hat)
  have hsplit := leadingTrivia_append_afterTrivia inside.leaves
  have htiles : lexemes file.source =
      (before ++ leadingTrivia inside.leaves) ++ afterTrivia inside.leaves ++ after := by
    rw [← leaves_placedRow, hat.leaves_eq, List.append_assoc before (leadingTrivia _), hsplit]
  refine ⟨_, _, after, htiles, ?_, fun l => isTrivia_head_afterTrivia _, fun hnil => ?_⟩
  · rw [hspan, hlead, List.append_assoc before, hsplit, totalSize_append, totalSize_append]
  · obtain ⟨hheld, rfl⟩ := List.append_eq_nil_iff.mp hnil
    obtain ⟨l, hl, ht⟩ := exists_last_of_at hat
    rw [htiles, hheld, List.append_nil, List.append_nil] at hl
    exact ⟨l, hl, ht⟩

/-- The range of a node begins on a line of the text, and not with a break. -/
theorem exists_text_of_node (hn : n ∈ file.root.inside.preorder) : ∃ head text tail,
    file.source.toList = head ++ text ++ tail ∧
      n.span = ⟨String.utf8Len head, String.utf8Len (head ++ text)⟩ ∧
      text.head? ≠ some '\n' ∧ Position.HasLine file.source (String.utf8Len head) := by
  obtain ⟨before, held, after, htiles, hspan, hhead, hlast⟩ := exists_covered hn
  have hmem (l : Lexeme) (hl : l ∈ before ++ (held ++ after)) : l ∈ lexemes file.source := by
    rwa [htiles, List.append_assoc]
  have hsource : file.source.toList = characters before ++ characters held ++ characters after := by
    rw [← characters_lexemes, htiles, characters_append, characters_append]
  refine ⟨_, _, _, hsource, ?_, head?_characters (fun l hl => hmem l (by simp [hl])) hhead, ?_⟩
  · rw [hspan, ← characters_append, utf8Len_characters, utf8Len_characters]
  · rw [List.append_assoc, ← characters_append] at hsource
    refine (Position.hasLine_iff hsource).mpr ?_
    by_cases hnil : held ++ after = []
    · -- the range is empty and the text ends with it
      obtain ⟨l, hl, ht⟩ := hlast hnil
      obtain ⟨rest, rfl⟩ := List.getLast?_eq_some_iff.mp hl
      obtain ⟨c, hc, hbreak⟩ := getLast?_of_mem_lexemes (hmem l (by simp)) ht
      refine .inr ⟨c, ?_, hbreak⟩
      rw [hsource, hnil, characters_append]
      simp [characters, List.getLast?_append, hc]
    · exact .inl (characters_ne_nil (fun l hl => hmem l (List.mem_append_right _ hl)) hnil)

/-! ## Where findings are -/

theorem mem_of_traced [Likeness] {r : Resolver} {t : Site} {name : Node}
    {target? : Option Definition} {f : Finding} (ht : t ∈ file.sites) (hkind : t.kind ≠ .schemaFile)
    (hname : name ∈ t.node.children) (h : (Checker.mk file r).Traced t.node name target? f) :
    f.node ∈ file.root.inside.preorder := by
  have hnode := file.node_mem_nodes ht
  rcases h with h | ⟨-, ⟨hself, -⟩ | ⟨m, hm, hconcerns⟩⟩
  · rw [(Checker.code_of_targetExists h).1]
    exact file.mem_of_mem_children hnode hname
  · rw [hself]
    exact file.mem_of_kind_ne hnode hkind
  · have hinside := file.mem_of_mem_children hnode hm
    rcases List.mem_cons.mp hconcerns.node with heq | hdeep
    · rwa [heq]
    · exact Forest.subset_preorder hinside _ hdeep

/-- Everything that is found is about a node below the root. -/
theorem mem_of_mem_checkFile [Likeness] {r : Resolver} {f : Finding} (hf : f ∈ checkFile file r) :
    f.node ∈ file.root.inside.preorder := by
  have hnode := (anchored_of_mem_checkFile hf).node
  rcases List.mem_append.mp hf with hfault | hfound
  · obtain ⟨⟨m, fault⟩, hm, rfl⟩ := List.mem_map.mp hfault
    refine file.mem_of_kind_ne hnode ?_
    have hkind := List.mem_map_of_mem (f := Prod.fst) hm
    rw [file.map_fst_faults] at hkind
    rw [eq_of_beq (List.mem_filter.mp hkind).2]
    decide
  obtain ⟨t, ht, judged, hfound⟩ := Checker.exists_of_mem_checkSites hfound
  cases Checker.finds_of_mem_checkSite (c := ⟨file, r⟩) ht hfound with
  | type _ hchild => exact file.mem_of_mem_children (file.node_mem_nodes ht) hchild
  | number _ hkind =>
    refine file.mem_of_kind_ne hnode ?_
    rcases hkind with h | h <;> rw [h] <;> decide
  | bareName hkind hself =>
    refine file.mem_of_kind_ne hnode ?_
    rw [hself, show t.node.kind = .nameRef from hkind]
    decide
  | tag hkind name hname _ h => exact mem_of_traced ht (by rw [hkind]; decide) hname h
  | construction hkind name hname _ h => exact mem_of_traced ht (by rw [hkind]; decide) hname h

/-- A label behind carets has no caret, since what it offers is a name. -/
theorem not_mem_label [Likeness] {r : Resolver} {f : Finding} (hf : f ∈ checkFile file r) :
    '^' ∉ (Excerpt.label (f.diagnostic file)).toList := by
  rw [Excerpt.label, Finding.diagnostic]
  cases hreplacement : f.replacement? with
  | none => simp
  | some name =>
    have hname : '^' ∉ name.toList := fun hcaret =>
      absurd (((quotes_of_mem_checkFile hf).replacement name hreplacement).spells _ hcaret)
        (by decide)
    simp only [Option.map_some, Problem.fixDescription]
    split <;> simp [toString, hname]

/-- A diagnostic of a text without carriage returns is reported with the line on which its
range begins. Below it, behind a margin as wide, stand carets: below the characters of that
line which the range covers and no others, or where the range begins if it is empty. In
front of them are blanks. Counting in machine words gives the same positions for a text that
is not too long for them. -/
theorem carets_under_range [Likeness] (file : SchemaFile) (r : Resolver) (path : Path)
    (hreturn : '\r' ∉ file.source.toList) (d : Diagnostic)
    (hd : d ∈ (checkFile file r).map (Finding.diagnostic file)) :
    (file.source.length < 2 ^ 32 - 1 → ∀ offset,
      (Counters.upTo file.source offset).position = .ofOffset file.source offset) ∧
    let block := Excerpt.block (Text.lines file.source) path d
    ∃ front before under after back pointer,
      Shows file.source d.range front before under after back ∧
      Excerpt.Points d.range front (before ++ under ++ after) before.length pointer ∧
      block = [Excerpt.heading d,
          " --> " ++ Excerpt.location path ⟨front.count '\n' + 1, before.length + 1⟩] ++
        Excerpt.framed (toString (front.count '\n' + 1))
          (String.ofList (before ++ under ++ after)) pointer ++ d.related.map (Excerpt.note path) ∧
      ∃ above below, Excerpt.full file.source path ((checkFile file r).map (·.diagnostic file)) =
        above ++ String.join (block.map (· ++ "\n")) ++ below := by
  refine ⟨Counters.position_upTo, ?_⟩
  intro block
  have hfull := Excerpt.exists_block_of_mem file.source path hd
  obtain ⟨f, hf, rfl⟩ := List.mem_map.mp hd
  obtain ⟨head, text, tail, hsource, hspan, hfirst, hline⟩ :=
    exists_text_of_node (mem_of_mem_checkFile hf)
  obtain ⟨front, before, under, after, back, hshows, hstart, hexcerpt⟩ :=
    Excerpt.excerpt_of_range (d := f.diagnostic file) hreturn hsource hfirst hline hspan
  refine ⟨front, before, under, after, back, _, hshows,
    Excerpt.points_of_shows hshows (not_mem_label hf), ?_, hfull⟩
  rw [← hexcerpt, ← hstart]
  exact Excerpt.block_of_lines rfl

section

attribute [local instance] Text.likeness

/-- A name that stands for nothing is underlined on its line. -/
theorem carets_under_unknown_name :
    let file := read (.unsaved 0) "// ä\ntype A \x7b Thing x = 1; \x7d"
    '\r' ∉ file.source.toList ∧
    file.source.length < 2 ^ 32 - 1 ∧
    ∃ d ∈ (checkFile file .localOnly).map (Finding.diagnostic file),
      (Counters.upTo file.source d.range.start).position = .ofOffset file.source d.range.start ∧
      Excerpt.block (Text.lines file.source) ⟨"main.schema"⟩ d =
        ["error[E010]: Unable to find type Thing", " --> main.schema:2:10", "  |",
          "2 | type A \x7b Thing x = 1; \x7d", "  |          ^^^^^"] ∧
      ∃ front before under after back pointer,
        Shows file.source d.range front before under after back ∧
        Excerpt.Points d.range front (before ++ under ++ after) before.length pointer := by
  intro file
  have hreturn : '\r' ∉ file.source.toList := by decide +kernel
  have hblocks : ((checkFile file .localOnly).map (Finding.diagnostic file)).map
      (Excerpt.block (Text.lines file.source) ⟨"main.schema"⟩) =
        [["error[E010]: Unable to find type Thing", " --> main.schema:2:10", "  |",
          "2 | type A \x7b Thing x = 1; \x7d", "  |          ^^^^^"]] := by
    decide +kernel
  obtain ⟨d, hd, hblock⟩ := List.mem_map.mp (hblocks ▸ List.mem_singleton_self _)
  have hroom : file.source.length < 2 ^ 32 - 1 := by decide +kernel
  obtain ⟨hwords, front, before, under, after, back, pointer, hshows, hpoints, -⟩ :=
    carets_under_range file .localOnly ⟨"main.schema"⟩ hreturn d hd
  exact ⟨hreturn, hroom, d, hd, hwords hroom _, hblock, front, before, under, after, back, pointer,
    hshows, hpoints⟩

end

end SchemaFile

end SchemaLang
