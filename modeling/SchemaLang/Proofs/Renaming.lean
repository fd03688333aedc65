import SchemaLang.Proofs.Anatomy
import SchemaLang.Proofs.Comparisons
import SchemaLang.Proofs.FullNames
import SchemaLang.Proofs.Respelling
import SchemaLang.Proofs.RenamedArguments
import SchemaLang.Proofs.Rewording
import SchemaLang.Report

/-!
# Names of arguments in other words

A check offers the name of the field for every name of an argument that is not
it. Such a name stands in a whole tag, before a value, and nowhere else in a
tree. So the text with all these fixes in it has the same lexemes but for these
names and is read as the same row but for these names: it is the file in other
words.
-/

set_option autoImplicit false

namespace SchemaLang

namespace Forest

variable {f : Forest Mark Token} {m n : Node} {t : Token}

/-- Of two nodes that hold one token, one is inside the other. -/
theorem nested_of_mem_leaves (hnodup : f.leaves.Nodup) (hm : m ∈ f.preorder)
    (hn : n ∈ f.preorder) (htm : t ∈ m.inside.leaves) (htn : t ∈ n.inside.leaves) :
    m = n ∨ m ∈ n.inside.preorder ∨ n ∈ m.inside.preorder := by
  induction f with
  | nil => cases hm
  | leaf u next ih => exact ih (List.nodup_cons.mp hnodup).2 hm hn
  | node mark inside next ihi ihn =>
    obtain ⟨hinside, hnext, hdisjoint⟩ := List.nodup_append'.mp hnodup
    have hapart (hi : t ∈ inside.leaves) (hx : t ∈ next.leaves) : False := hdisjoint hi hx
    have hbelow {k : Node} (hk : k ∈ inside.preorder) (htk : t ∈ k.inside.leaves) :
        t ∈ inside.leaves := leaves_subset_of_mem_preorder hk htk
    have hbehind {k : Node} (hk : k ∈ next.preorder) (htk : t ∈ k.inside.leaves) :
        t ∈ next.leaves := leaves_subset_of_mem_preorder hk htk
    rw [preorder, List.mem_cons, List.mem_append] at hm hn
    rcases hm with rfl | hm | hm <;> rcases hn with rfl | hn | hn
    · exact .inl rfl
    · exact .inr (.inr hn)
    · exact (hapart htm (hbehind hn htn)).elim
    · exact .inr (.inl hm)
    · exact ihi hinside hm hn
    · exact (hapart (hbelow hm htm) (hbehind hn htn)).elim
    · exact (hapart htn (hbehind hm htm)).elim
    · exact (hapart (hbelow hn htn) (hbehind hm htm)).elim
    · exact ihn hnext hm hn

/-- If every token in new words stands in a node of the sort, the rows differ in such nodes only. -/
theorem altered_of_changed {S : Shape → Row → Row → Prop} {ρ : Token → Lexeme}
    (hnodup : f.leaves.Nodup)
    (h : ∀ t ∈ f.leaves, t.isTrivia = false → ρ t ≠ t.lexeme → ∃ n ∈ f.preorder,
      t ∈ n.inside.leaves ∧
        S n.mark.shape (n.inside.worded Token.lexeme) (n.inside.worded ρ)) :
    Altered S (f.worded Token.lexeme) (f.worded ρ) := by
  induction f with
  | nil => exact .nil
  | leaf t next ih =>
    obtain ⟨hfresh, hnodup⟩ := List.nodup_cons.mp hnodup
    have hnext := ih hnodup fun u hu => h u (List.mem_cons_of_mem t hu)
    rw [worded, worded]
    split
    · exact hnext
    · rename_i htrivia
      have hkept : ρ t = t.lexeme := by
        by_contra hne
        obtain ⟨n, hn, htn, -⟩ := h t List.mem_cons_self (Bool.not_eq_true _ ▸ htrivia) hne
        have hn : n ∈ next.preorder := hn
        exact hfresh (leaves_subset_of_mem_preorder hn htn)
      rw [hkept]
      exact .leaf _ hnext
  | node mark inside next ihi ihn =>
    obtain ⟨hinside, hnodup, hdisjoint⟩ := List.nodup_append'.mp hnodup
    have hnext : Altered S (next.worded Token.lexeme) (next.worded ρ) := by
      refine ihn hnodup fun t ht htrivia hne => ?_
      obtain ⟨n, hn, htn, hS⟩ := h t (List.mem_append_right _ ht) htrivia hne
      rw [preorder, List.mem_cons, List.mem_append] at hn
      rcases hn with rfl | hn | hn
      · exact (hdisjoint htn ht).elim
      · exact (hdisjoint (leaves_subset_of_mem_preorder hn htn) ht).elim
      · exact ⟨n, hn, htn, hS⟩
    by_cases hself : S mark.shape (inside.worded Token.lexeme) (inside.worded ρ)
    · exact .changed hself hnext
    · refine .node _ (ihi hinside fun t ht htrivia hne => ?_) hnext
      obtain ⟨n, hn, htn, hS⟩ := h t (List.mem_append_left _ ht) htrivia hne
      rw [preorder, List.mem_cons, List.mem_append] at hn
      rcases hn with rfl | hn | hn
      · exact absurd hS hself
      · exact ⟨n, hn, htn, hS⟩
      · exact (hdisjoint ht (leaves_subset_of_mem_preorder hn htn)).elim

end Forest

/-! ## The token of a name -/

structure NamedBy (file : SchemaFile) (written : Node) (t : Token) : Prop where
  mem : written ∈ file.root.inside.preorder
  shape : written.mark.shape = .construct .fieldRef true
  token : t ∈ tokenize file.source
  kind : t.kind = .identifier
  inside : written.inside = .leaf t .nil
  span : written.span = ⟨t.start, t.stop⟩
  text : file.text written = t.text

theorem NamedBy.mem_leaves {file : SchemaFile} {written : Node} {t : Token}
    (h : NamedBy file written t) : t ∈ written.inside.leaves := by
  rw [h.inside]
  exact List.mem_cons_self

theorem Shape.eq_construct {shape : Shape} {kind : NodeKind} (hkind : shape.kind = kind)
    (hne : kind ≠ .error) (hcomplete : shape.complete = true) :
    shape = .construct kind true := by
  cases shape with
  | construct k complete =>
    obtain rfl : k = kind := hkind
    obtain rfl : complete = true := hcomplete
    rfl
  | skipped fault => exact absurd hkind.symm hne

namespace SchemaFile

variable (file : SchemaFile) {n : Node}

/-- A whole name of an argument stands over one identifier. -/
theorem namedBy_of_fieldRef (hn : n ∈ file.root.inside.preorder) (hkind : n.kind = .fieldRef)
    (hwhole : n.incomplete = false) : ∃ t, NamedBy file n t := by
  have hlexeme : n.kind.isLexeme = true := by rw [hkind]; rfl
  have hne := NodeKind.isLexeme_ne_error hlexeme
  obtain ⟨t, ht, htrivia, hinside⟩ := file.inside_of_isLexeme hn hlexeme
  have htrivia' : t.lexeme.isTrivia = false := htrivia
  have hleaves : n.inside.gist.leaves = [t.lexeme] := by
    rw [Forest.leaves_gist, hinside]
    simp [Forest.leaves, SchemaLang.significant, htrivia']
  obtain ⟨l, hl, hadmits⟩ := file.leaves_of_isLexeme hn hlexeme
  obtain rfl : t.lexeme = l := List.singleton_inj.mp (hleaves.symm.trans hl)
  obtain ⟨-, first, last, hfirst, hlast, hspan⟩ :=
    file.range_of_construct n (List.mem_cons_of_mem _ hn) (file.id_ne_zero hn) hne
  rw [hinside] at hfirst hlast
  simp only [Forest.leaves, List.filter_cons, htrivia, List.filter_nil, Bool.not_false,
    if_true, List.head?_cons, List.getLast?_singleton, Option.some_inj] at hfirst hlast
  refine ⟨t, hn, ?_, ht, ?_, hinside, by rw [hspan, ← hfirst, ← hlast],
    (file.text_of_leaves_eq_singleton hn hne hleaves).2⟩
  · exact Shape.eq_construct hkind (by decide) (by simpa [Node.incomplete] using hwhole)
  · rw [hkind] at hadmits
    exact eq_of_beq hadmits

/-- Different tokens of a text start at different offsets. -/
theorem eq_of_start_eq {t u : Token} (ht : t ∈ tokenize file.source)
    (hu : u ∈ tokenize file.source) (h : t.start = u.start) : t = u := by
  obtain ⟨hpairs, hsizes⟩ := ascending_tokensFrom 0 (lexemes file.source)
    (size_pos_of_mem_scan file.source.toList)
  have hstarts : ((tokenize file.source).map Token.start).Nodup := by
    refine List.pairwise_map.mpr (hpairs.imp_of_mem fun {a b} ha _ hab heq => ?_)
    have := hsizes a ha
    omega
  exact List.inj_on_of_nodup_map hstarts ht hu h

end SchemaFile

/-! ## Fixes for names -/

def SchemaFile.withFixes (file : SchemaFile) (fixes : List SuggestedFix) : SchemaFile :=
  .read file.origin (SuggestedFix.apply fixes file.source)

def FileReport.nameFixes (report : FileReport) : List SuggestedFix :=
  (report.diagnostics.filter (·.code == .nameMismatch)).filterMap Diagnostic.fix?

namespace Checker

variable {c : Checker} {written : Node} {declared : String}

theorem Matches.mem [Likeness] {s : Site} {target : Definition} (h : c.Matches s target) :
    s.node ∈ c.file.root.inside.preorder :=
  c.file.mem_of_kind_ne (c.file.node_mem_nodes h.site) fun hroot => by
    have hkind := h.kind
    rw [Site.kind, hroot] at hkind
    cases hkind

/-- A name that is compared stands over one identifier, in a whole tag whose arguments are whole. -/
theorem Compares.namedBy [Likeness] (h : c.Compares written declared) :
    (∃ t, NamedBy c.file written t) ∧
    ∃ tag ∈ c.file.root.inside.preorder, tag.mark.shape = .construct .tag true ∧
      (∀ a ∈ tag.children, a.kind = .namedArgument → a.incomplete = false) ∧
      written ∈ tag.inside.preorder := by
  have hkind := h.kind
  obtain ⟨s, target, argument, field, hmatch, hpair, hwritten, -⟩ := h
  have hchild := List.mem_of_find?_eq_some hwritten
  have hargument := (List.of_mem_zip hpair).1
  have hwhole := hmatch.arguments_whole argument hargument
  obtain ⟨n, hn, hnkind, rfl⟩ := exists_of_mem_childSites hargument
  have hin : n ∈ c.file.root.inside.preorder :=
    c.file.mem_of_mem_children (List.mem_cons_of_mem _ hmatch.mem) hn
  have hnintact : n.Intact :=
    c.file.intact_of_holdsValues hin (by rw [hnkind]; rfl) hwhole
  have hmem := c.file.mem_of_mem_children (List.mem_cons_of_mem _ hin) hchild
  refine ⟨c.file.namedBy_of_fieldRef hmem hkind
    (c.file.intact_of_mem_children hin hnintact hchild).1.1, s.node, hmatch.mem, ?_, ?_, ?_⟩
  · exact Shape.eq_construct hmatch.kind (by decide) (by simpa [Node.incomplete] using hmatch.whole)
  · exact fun a ha hkind => hmatch.arguments_whole (s.child a)
      (List.mem_map_of_mem (List.mem_filter.mpr ⟨ha, beq_iff_eq.mpr hkind⟩))
  · exact Forest.subset_preorder ((Forest.nodes_sublist_preorder _).subset hn) _
      ((Forest.nodes_sublist_preorder _).subset hchild)

theorem Compares.isName [Likeness] (h : c.Compares written declared) : IsName declared := by
  obtain ⟨s, target, argument, field, hmatch, hpair, -, rfl⟩ := h
  obtain ⟨name, -, hname⟩ := Option.bind_eq_some_iff.mp hmatch.target_eq
  have htarget : target.file.Has target.site :=
    (c.resolver.has_of_resolve? (SchemaFile.has_of_mem_sites hmatch.site) hname).1
  obtain ⟨hchild, hkind, -⟩ := SchemaFile.child_of_mem_orderedFields (List.of_mem_zip hpair).2
  obtain ⟨-, -, name, hfield⟩ :=
    SchemaFile.field_of_mem_orderedFields htarget.1 (List.of_mem_zip hpair).2
  rw [hfield]
  exact SchemaFile.isName_of_name?
    (List.mem_cons_of_mem _ (target.file.mem_of_mem_children htarget.1 hchild))
    ((SchemaFile.name?_of_field hkind).trans hfield)

structure Renames [Likeness] (c : Checker) (fixes : List SuggestedFix) : Prop where
  sound : ∀ fix ∈ fixes, ∃ written declared, c.Compares written declared ∧
    fix.range = written.span ∧ fix.replacement = declared
  complete : ∀ written declared, c.Compares written declared → c.text written ≠ declared →
    ∃ fix ∈ fixes, fix.range = written.span

theorem renames_nameFixes [Likeness] (c : Checker) (path : Path) :
    c.Renames (FileReport.ofFile path c.file c.resolver).nameFixes where
  sound fix hfix := by
    obtain ⟨d, hd, hoffered⟩ := List.mem_filterMap.mp hfix
    obtain ⟨hd, hcode⟩ := List.mem_filter.mp hd
    obtain ⟨finding, hfinding, rfl⟩ := List.mem_map.mp hd
    obtain ⟨written, declared, hcompares, -, rfl⟩ :=
      misnames_of_mem_checkFile hfinding (eq_of_beq hcode)
    obtain rfl := Option.some.inj hoffered
    exact ⟨written, declared, hcompares, rfl, rfl⟩
  complete written declared hcompares hne :=
    ⟨_, List.mem_filterMap.mpr ⟨_, List.mem_filter.mpr
      ⟨List.mem_map_of_mem (hcompares.reported hne), rfl⟩, rfl⟩, rfl⟩

namespace Renames

variable [Likeness] {fixes : List SuggestedFix} (h : c.Renames fixes) {t : Token}
include h

theorem exists_of_find? {fix : SuggestedFix} (ht : t ∈ tokenize c.file.source)
    (hfix : fixes.find? (SuggestedFix.startsAt t.start) = some fix) :
    ∃ written, c.Compares written fix.replacement ∧ NamedBy c.file written t := by
  obtain ⟨written, declared, hcompares, hrange, rfl⟩ := h.sound fix (List.mem_of_find?_eq_some hfix)
  obtain ⟨u, hu⟩ := hcompares.namedBy.1
  have hfound := List.find?_some hfix
  have hstart : fix.range.start = t.start := eq_of_beq hfound
  rw [hrange, hu.span] at hstart
  obtain rfl := c.file.eq_of_start_eq hu.token ht hstart
  exact ⟨written, hcompares, hu⟩

theorem exists_of_changed (ht : t ∈ tokenize c.file.source)
    (hne : SuggestedFix.spelling fixes t ≠ t.lexeme) :
    ∃ written, c.Compares written (SuggestedFix.spelling fixes t).text ∧
      NamedBy c.file written t := by
  cases hfix : fixes.find? (SuggestedFix.startsAt t.start) with
  | none =>
    rw [SuggestedFix.spelling, hfix] at hne
    exact absurd rfl hne
  | some fix =>
    rw [SuggestedFix.spelling, hfix]
    exact h.exists_of_find? ht hfix

/-- A node over a token that changes is the name itself, or the name is inside it. -/
theorem exists_inside {m : Node} (hm : m ∈ c.file.root.inside.preorder)
    (ht : t ∈ m.inside.leaves) (hne : SuggestedFix.spelling fixes t ≠ t.lexeme) :
    ∃ written, c.Compares written (SuggestedFix.spelling fixes t).text ∧
      NamedBy c.file written t ∧ (written = m ∨ written ∈ m.inside.preorder) := by
  have htoken := Forest.leaves_subset_of_mem_preorder hm ht
  rw [c.file.leaves_root] at htoken
  obtain ⟨written, hcompares, hname⟩ := h.exists_of_changed htoken hne
  refine ⟨written, hcompares, hname, ?_⟩
  rcases Forest.nested_of_mem_leaves c.file.nodup_leaves_root hname.mem hm hname.mem_leaves ht
    with hsame | hin | hin
  · exact .inl hsame
  · exact .inr hin
  · -- nothing stands inside a name
    rw [hname.inside] at hin
    cases hin

/-- A name that is compared becomes the name of the field. -/
theorem text_spelling (hcompares : c.Compares written declared)
    (hname : NamedBy c.file written t) :
    (SuggestedFix.spelling fixes t).text = declared := by
  cases hfix : fixes.find? (SuggestedFix.startsAt t.start) with
  | some fix =>
    obtain ⟨written', hcompares', hname'⟩ := h.exists_of_find? hname.token hfix
    have hsame : written' = written := c.file.eq_of_span_eq hname'.mem hname.mem
      (by rw [hcompares'.kind]; decide)
      (c.file.children_eq_nil hname'.mem (.inl (by rw [hcompares'.kind]; rfl)))
      (c.file.children_eq_nil hname.mem (.inl (by rw [hcompares.kind]; rfl)))
      (by rw [hname'.span, hname.span])
    subst hsame
    rw [SuggestedFix.spelling, hfix]
    exact hcompares'.unique hcompares
  | none =>
    rw [SuggestedFix.spelling, hfix]
    by_contra hne
    obtain ⟨fix, hmem, hrange⟩ := h.complete written declared hcompares
      (by rwa [text, hname.text])
    refine List.find?_eq_none.mp hfix fix hmem (beq_iff_eq.mpr ?_)
    rw [hrange, hname.span]

/-! ## The new text -/

/-- The names that change stand in whole tags, each over one identifier. -/
theorem retold : Retold (c.file.root.inside.worded Token.lexeme)
    (c.file.root.inside.worded (SuggestedFix.spelling fixes)) := by
  have hnodup := c.file.nodup_leaves_root
  refine Forest.altered_of_changed hnodup fun t ht htrivia hne => ?_
  rw [c.file.leaves_root] at ht
  obtain ⟨written, hcompares, hname⟩ := h.exists_of_changed ht hne
  obtain ⟨-, tag, htag, hshape, hwhole, hin⟩ := hcompares.namedBy
  refine ⟨tag, htag, Forest.leaves_subset_of_mem_preorder hin hname.mem_leaves, hshape, ?_, ?_⟩
  · rw [Forest.worded_lexeme]
    intro shape hshape hargument
    obtain ⟨a, ha, rfl⟩ := List.mem_map.mp (tag.tops_content ▸ hshape)
    simpa [Node.incomplete] using hwhole a ha hargument
  -- the tag may hold other names that change
  · refine Forest.altered_of_changed ((Forest.leaves_sublist_of_mem_preorder htag).nodup hnodup)
      fun u hu hutrivia hune => ?_
    obtain ⟨other, hother, hnamed, hsame | hbelow⟩ := h.exists_inside htag hu hune
    · have hkind := hother.kind
      rw [hsame, Node.kind, hshape] at hkind
      cases hkind
    refine ⟨other, hbelow, hnamed.mem_leaves, hnamed.shape, u.lexeme,
      SuggestedFix.spelling fixes u, ?_, ?_, hnamed.kind, hnamed.kind⟩ <;>
    · rw [hnamed.inside, Forest.worded, hutrivia]
      rfl

theorem lexemes_apply (hspelling : Respelt (significant (lexemes c.file.source))
      (c.file.root.inside.worded (SuggestedFix.spelling fixes)).leaves) :
    lexemes (SuggestedFix.apply fixes c.file.source) =
      (tokenize c.file.source).map (SuggestedFix.spelling fixes) := by
  let ps := (tokenize c.file.source).map fun t => (t.lexeme, SuggestedFix.spelling fixes t)
  have hfst : ps.map Prod.fst = lexemes c.file.source := by
    rw [List.map_map]
    exact lexeme_tokensFrom 0 _
  have hsnd : ps.map Prod.snd = (tokenize c.file.source).map (SuggestedFix.spelling fixes) := by
    rw [List.map_map]
    rfl
  have hsignificant : significant (ps.map Prod.snd) =
      (c.file.root.inside.worded (SuggestedFix.spelling fixes)).leaves := by
    rw [Forest.leaves_worded, c.file.leaves_root, hsnd, significant, List.filter_map]
    rfl
  have happly : SuggestedFix.apply fixes c.file.source =
      String.ofList (characters (ps.map Prod.snd)) := by
    rw [hsnd, ← SuggestedFix.toList_apply, String.ofList_toList]
    intro fix hfix
    obtain ⟨written, declared, hcompares, hrange, -⟩ := h.sound fix hfix
    obtain ⟨t, ht⟩ := hcompares.namedBy.1
    exact ⟨t, ht.token, hrange.trans ht.span⟩
  rw [happly, ← hsnd]
  refine lexemes_respelt hfst.symm (fun p hp hne => ?_) (by rwa [hfst, hsignificant])
  obtain ⟨t, ht, rfl⟩ := List.mem_map.mp hp
  obtain ⟨written, hcompares, hname⟩ := h.exists_of_changed ht (Ne.symm hne)
  exact ⟨hname.kind, hname.kind, hcompares.isName⟩

/-- With the fixes in it, the text is read as the file in other words. -/
theorem reworded : Reworded (SuggestedFix.spelling fixes) c.file (c.file.withFixes fixes) := by
  have hretold := h.retold
  rw [worded_root] at hretold
  obtain ⟨hspelling, hread⟩ := parseWith_retold hretold
  have hlexemes := h.lexemes_apply hspelling
  refine ⟨fun t => rfl, hlexemes, ?_⟩
  have hsignificant : significant (lexemes (SuggestedFix.apply fixes c.file.source)) =
      (c.file.root.inside.worded (SuggestedFix.spelling fixes)).leaves := by
    rw [Forest.leaves_worded, c.file.leaves_root, hlexemes, significant, List.filter_map]
    rfl
  show parseRow (significant (lexemes (SuggestedFix.apply fixes c.file.source))) = _
  rw [hsignificant]
  exact hread

end Renames

end Checker

end SchemaLang
