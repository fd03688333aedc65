import SchemaLang.Proofs.Parts

/-!
# Literals are no names

What stands for something begins like a name, has the characters of names only,
and ends with a name behind its last dot. A number, a string, a list or a map
begins otherwise, a construction ends otherwise, and no name is spelled like
`true` or `false` in any case. So of all values but `_` only a bare name can
stand for a value of an enum.
-/

set_option autoImplicit false

namespace SchemaLang

namespace Scan

def leadsName (c : Char) : Bool := startsName c || c == '.'

theorem leadsName_of_nameTail? {c : Char} {cs : List Char} :
    (nameTail? c cs).isSome = leadsName c := by
  unfold nameTail? leadsName
  split
  · rename_i hc
    simp [hc]
  · split
    · rename_i hdot
      simp [hdot]
    · rename_i hc hdot
      simp [hc, hdot]

theorem nameTail_le (cs : List Char) : nameTail cs ≤ cs.length := by
  induction cs with
  | nil => exact le_rfl
  | cons c cs ih =>
    rw [nameTail, List.length_cons]
    split
    · omega
    · split
      · split <;> omega
      · omega

theorem nameTail_stops {cs : List Char} (h : '.' ∉ cs.take (nameTail cs)) :
    (cs.drop (nameTail cs)).head?.any (fun c => continuesName c || c == '.') = false := by
  induction cs with
  | nil => rfl
  | cons c cs ih =>
    rw [nameTail] at h ⊢
    split at h
    · rename_i hc
      rw [if_pos hc, List.drop_succ_cons]
      exact ih fun hdot => h (by rw [List.take_succ_cons]; exact List.mem_cons_of_mem _ hdot)
    · rename_i hc
      rw [if_neg hc]
      split at h
      · rename_i hdot
        refine absurd ?_ h
        split <;> simp [hdot]
      · rename_i hdot
        rw [if_neg hdot, List.drop_zero, List.head?_cons, Option.any_some]
        simp [hc, hdot]

def IsBoolean (cs : List Char) : Prop :=
  cs.map Char.toLower = "true".toList ∨ cs.map Char.toLower = "false".toList

theorem wordLength?_eq_some_iff {word : String} {cs : List Char} {n : Nat} :
    wordLength? word cs = some n ↔ n = word.length ∧
      (cs.take n).map Char.toLower = word.toList ∧
      (cs.drop n).head?.any (fun c => continuesName c || c == '.') = false := by
  rw [wordLength?]
  split
  · rename_i h
    rw [Option.some.injEq]
    exact ⟨fun hn => by subst hn; exact ⟨rfl, h⟩, fun hn => hn.1.symm⟩
  · rename_i h
    exact ⟨fun hn => by (cases hn), fun hn => absurd (hn.1 ▸ hn.2) h⟩

theorem lead_word (c : Char) (cs : List Char) :
    (lead c cs).1 ∈ [.whitespace, .comment] ∨
      (∃ n, booleanTail? c cs = some n ∧ lead c cs = (.boolean, n)) ∨
      (∃ n, booleanTail? c cs = none ∧ nameTail? c cs = some n ∧ lead c cs = (.identifier, n)) ∨
      (nameTail? c cs = none ∧
        (lead c cs).1 ∉ [.whitespace, .comment, .boolean, .identifier]) := by
  unfold lead
  split
  · exact .inl (by simp)
  split
  · exact .inl (by simp)
  split
  · exact .inr (.inl ⟨_, ‹_›, rfl⟩)
  rename_i hboolean
  have hboolean : booleanTail? c cs = none := Option.eq_none_iff_forall_ne_some.mpr hboolean
  split
  · exact .inr (.inr (.inl ⟨_, hboolean, ‹_›, rfl⟩))
  rename_i hname
  refine .inr (.inr (.inr ⟨Option.eq_none_iff_forall_ne_some.mpr hname, ?_⟩))
  split
  · simp
  split
  · simp
  unfold punctuation?
  split <;> simp

theorem lead_of_boolean {c : Char} {cs : List Char} (h : (lead c cs).1 = .boolean) :
    IsBoolean (c :: cs.take (lead c cs).2) := by
  have hword {word : String} {n : Nat} (hword : wordLength? word (c :: cs) = some n)
      (hpos : 0 < word.length) : (c :: cs.take (n - 1)).map Char.toLower = word.toList := by
    obtain ⟨rfl, hlower, -⟩ := wordLength?_eq_some_iff.mp hword
    rw [← hlower, ← List.take_succ_cons, Nat.sub_add_cancel hpos]
  rcases lead_word c cs with hlead | ⟨n, hn, hlead⟩ | ⟨n, -, -, hlead⟩ | ⟨-, hlead⟩
  · rw [h] at hlead
    exact absurd hlead (by decide)
  · rw [hlead]
    obtain ⟨k, hk, rfl⟩ := Option.map_eq_some_iff.mp hn
    exact (Option.or_eq_some_iff.mp hk).imp (fun hk => hword hk (by decide))
      fun hk => hword hk.2 (by decide)
  · rw [hlead] at h
    cases h
  · rw [h] at hlead
    exact absurd (by decide) hlead

/-- A name that reads like one of the words would have been taken for it. -/
theorem lead_of_identifier {c : Char} {cs : List Char} (h : (lead c cs).1 = .identifier) :
    leadsName c = true ∧ ¬IsBoolean (c :: cs.take (lead c cs).2) := by
  rcases lead_word c cs with hlead | ⟨n, -, hlead⟩ | ⟨n, hboolean, hname, hlead⟩ | ⟨-, hlead⟩
  · rw [h] at hlead
    exact absurd hlead (by decide)
  · rw [hlead] at h
    cases h
  · refine ⟨by rw [← leadsName_of_nameTail?, hname]; rfl, ?_⟩
    rw [hlead]
    rw [booleanTail?, Option.map_eq_none_iff, Option.or_eq_none_iff] at hboolean
    have hword {word : String} (hletters : '.' ∉ word.toList)
        (hnone : wordLength? word (c :: cs) = none) :
        (c :: cs.take n).map Char.toLower ≠ word.toList := by
      intro hlower
      have hdot : '.' ∉ c :: cs.take n := fun hdot =>
        hletters (hlower ▸ List.mem_map_of_mem (f := Char.toLower) hdot)
      rw [List.mem_cons, not_or] at hdot
      obtain rfl : n = nameTail cs := by
        rw [nameTail?] at hname
        split at hname
        · exact (Option.some.inj hname).symm
        · rw [if_neg (Ne.symm hdot.1)] at hname
          cases hname
      have hlength : nameTail cs + 1 = word.length := by
        have hlength := congrArg List.length hlower
        rw [List.length_map, List.length_cons, List.length_take, Nat.min_eq_left (nameTail_le cs),
          String.length_toList] at hlength
        exact hlength
      have hsome := wordLength?_eq_some_iff.mpr ⟨hlength, by rwa [List.take_succ_cons], by
        rw [List.drop_succ_cons]
        exact nameTail_stops hdot.2⟩
      rw [hnone] at hsome
      cases hsome
    exact not_or.mpr ⟨hword (by decide) hboolean.1, hword (by decide) hboolean.2⟩
  · rw [h] at hlead
    exact absurd (by decide) hlead

/-- Numbers, strings, lists and maps begin with no name. -/
theorem lead_of_literal {c : Char} {cs : List Char}
    (h : (lead c cs).1 ∈ [.integer, .string, .lbracket, .lbrace]) : leadsName c = false := by
  rcases lead_word c cs with hlead | ⟨n, -, hlead⟩ | ⟨n, -, -, hlead⟩ | ⟨hname, -⟩
  · have hdisjoint : ∀ kind ∈ [TokenKind.integer, .string, .lbracket, .lbrace],
        kind ∉ [TokenKind.whitespace, .comment] := by decide
    exact absurd hlead (hdisjoint _ h)
  · rw [show (lead c cs).1 = .boolean by rw [hlead]] at h
    exact absurd h (by decide)
  · rw [show (lead c cs).1 = .identifier by rw [hlead]] at h
    exact absurd h (by decide)
  · rw [← leadsName_of_nameTail?, hname]
    rfl

end Scan

open Scan

/-! ## Lexemes -/

theorem isBoolean_of_mem_lexemes {source : String} {l : Lexeme} (hl : l ∈ lexemes source)
    (h : l.kind = .boolean) : IsBoolean l.text.toList := by
  obtain ⟨c, rest, rfl⟩ := exists_lead_of_mem_scan hl
  rw [String.toList_ofList]
  exact lead_of_boolean h

theorem leadsName_of_literal {source : String} {l : Lexeme} (hl : l ∈ lexemes source)
    (h : l.kind ∈ [.integer, .string, .lbracket, .lbrace]) {c : Char}
    (hc : l.text.toList.head? = some c) : leadsName c = false := by
  obtain ⟨x, rest, rfl⟩ := exists_lead_of_mem_scan hl
  rw [String.toList_ofList, List.head?_cons] at hc
  rw [← Option.some.inj hc]
  exact lead_of_literal h

namespace IsName

variable {name : String} (h : IsName name)
include h

theorem exists_head : ∃ c, name.toList.head? = some c ∧ leadsName c = true := by
  obtain ⟨source, l, hl, hkind, rfl⟩ := h
  obtain ⟨c, rest, rfl⟩ := exists_lead_of_mem_scan hl
  exact ⟨c, by rw [String.toList_ofList, List.head?_cons], (lead_of_identifier hkind).1⟩

theorem not_isBoolean : ¬IsBoolean name.toList := by
  obtain ⟨source, l, hl, hkind, rfl⟩ := h
  obtain ⟨c, rest, rfl⟩ := exists_lead_of_mem_scan hl
  rw [String.toList_ofList]
  exact (lead_of_identifier hkind).2

end IsName

/-! ## What stands for something -/

structure Nominal (text : String) : Prop where
  head : ∃ c, text.toList.head? = some c ∧ leadsName c = true
  spells : ∀ c ∈ text.toList, spellsName c = true
  last : ∀ last, (Text.split '.' text).getLast? = some last → IsName last

theorem Resolver.nominal_of_resolve? (r : Resolver) {file : SchemaFile} {s : Site}
    (h : file.Has s) {name : String} {d : Definition} (hd : r.resolve? file s name = some d) :
    Nominal name := by
  refine ⟨?_, r.spellsName_of_resolve? h hd, fun last hlast => ?_⟩
  · rcases (r.has_of_resolve? h hd).2 with hall | ⟨package, rest, hpackage, rfl, -⟩
    · obtain ⟨first, others, hsplit⟩ := List.exists_cons_of_ne_nil
        (l := Text.split '.' name) (by simp [Text.split, List.splitOn_ne_nil])
      obtain ⟨c, hc, hleads⟩ := (hall first (by simp [hsplit])).exists_head
      exact ⟨c, Text.head?_of_split hsplit hc, hleads⟩
    · obtain ⟨c, hc, hleads⟩ := hpackage.exists_head
      obtain ⟨tail, htail⟩ := List.head?_eq_some_iff.mp hc
      exact ⟨c, by simp [String.toList_append, htail], hleads⟩
  · rcases (r.has_of_resolve? h hd).2 with hall | ⟨package, rest, -, rfl, hall⟩
    · exact hall last (List.mem_of_getLast? hlast)
    · have hne : Text.split '.' rest ≠ [] := by simp [Text.split, List.splitOn_ne_nil]
      rw [Text.split_append, List.getLast?_append_of_ne_nil _ hne] at hlast
      exact hall last (List.mem_of_getLast? hlast)

theorem Nominal.behind {front text : String} (h : Nominal (front ++ "." ++ text))
    (hplain : '.' ∉ text.toList) : IsName text := by
  refine h.last text ?_
  rw [Text.split_append, Text.split_of_not_mem hplain]
  simp

theorem Nominal.isName {text : String} (h : Nominal text) (hplain : '.' ∉ text.toList) :
    IsName text := h.last text (by rw [Text.split_of_not_mem hplain]; rfl)

/-- A name without a dot stands for something by itself. -/
theorem IsName.nominal {text : String} (h : IsName text) (hplain : '.' ∉ text.toList) :
    Nominal text :=
  ⟨h.exists_head, h.spells, fun last hlast => by
    rw [Text.split_of_not_mem hplain] at hlast
    obtain rfl : text = last := by simpa using hlast
    exact h⟩

/-! ## Values -/

theorem Text.trim_of_not_white {s : String} (h : ∀ c ∈ s.toList, Text.isWhite c = false) :
    Text.trim s = s := by
  have hdrop {cs : List Char} (hcs : ∀ c ∈ cs, Text.isWhite c = false) :
      cs.dropWhile Text.isWhite = cs := by
    cases cs with
    | nil => rfl
    | cons c cs => exact List.dropWhile_cons_of_neg (by simp [hcs c List.mem_cons_self])
  rw [Text.trim, Text.trimStart, hdrop h, Text.trimEnd, hdrop (by simpa using h),
    List.reverse_reverse, String.ofList_toList]

theorem Scan.IsBoolean.not_white {cs : List Char} (h : IsBoolean cs) :
    ∀ c ∈ cs, Text.isWhite c = false := by
  have hlower {c : Char} (hc : Text.isWhite c = true) : c.toLower = c := by
    refine dif_neg fun hupper => ?_
    simp only [Text.isWhite, Bool.or_eq_true, Bool.and_eq_true, decide_eq_true_eq, beq_iff_eq,
      Char.toNat] at hc
    have hlow : 65 ≤ c.val.toNat := hupper.1
    have hhigh : c.val.toNat ≤ 90 := hupper.2
    omega
  have hword : ∀ word ∈ ["true", "false"], ∀ c ∈ word.toList, Text.isWhite c = false := by
    simp [Text.isWhite]
  intro c hc
  have hmap := List.mem_map_of_mem (f := Char.toLower) hc
  by_contra hwhite
  rw [Bool.not_eq_false] at hwhite
  rw [hlower hwhite] at hmap
  rcases h with h | h
  · rw [h] at hmap
    rw [hword "true" (by simp) c hmap] at hwhite
    cases hwhite
  · rw [h] at hmap
    rw [hword "false" (by simp) c hmap] at hwhite
    cases hwhite

theorem Scan.IsBoolean.plain {cs : List Char} (h : IsBoolean cs) : '.' ∉ cs := by
  intro hdot
  have hmap := List.mem_map_of_mem (f := Char.toLower) hdot
  rcases h with h | h <;> rw [h] at hmap <;> exact absurd hmap (by decide)

theorem SchemaFile.text_of_nameRef {file : SchemaFile} {n : Node}
    (hn : n ∈ file.root.inside.preorder) (hkind : n.kind = .nameRef) :
    file.text n ≠ "_" ∧ IsName (file.text n) := by
  have hcomposes := file.composes_of_mem hn (by simp [hkind])
  rw [hkind] at hcomposes
  obtain ⟨t, hcontent, htext⟩ := hcomposes
  obtain ⟨u, hu, hidentifier⟩ := file.head_of_opener? hn
    (show n.kind.opener? = some .identifier by rw [hkind]; rfl)
  have hleaves : n.inside.gist.leaves = [t] := by
    rw [← n.leaves_content, hcontent]
    rfl
  obtain rfl : t = u := by simpa [hleaves] using hu
  obtain ⟨ht, hspelled⟩ := file.text_of_leaves_eq_singleton hn (by simp [hkind]) hleaves
  rw [hspelled]
  exact ⟨htext, file.source, t, ht, hidentifier, rfl⟩

/-- Of all values but `_` only a bare name is spelled like one. -/
theorem WholeValue.nameRef_of_nominal {file : SchemaFile} {s : Site} (h : WholeValue file s)
    (hne : Text.trim (file.text s.node) ≠ "_") (hnominal : Nominal (Text.trim (file.text s.node))) :
    s.kind = .nameRef := by
  obtain ⟨l, c, hl, hopener, hc, -, hhead⟩ := h.exists_opener
  obtain ⟨x, hx, hleads⟩ := hnominal.head
  obtain rfl : c = x := Option.some.inj (hhead.symm.trans hx)
  have hliteral (hkind : l.kind ∈ [.integer, .string, .lbracket, .lbrace]) : False := by
    rw [leadsName_of_literal hl hkind hc] at hleads
    cases hleads
  have hvalue : s.node.kind.isValue = true := h.value
  have hkind : s.kind = s.node.kind := rfl
  rw [hkind]
  cases hnode : s.node.kind with
  | nameRef => rfl
  | intValue | decimalValue | stringValue | list | map =>
    rw [hnode] at hopener
    exact (hliteral (by rw [← Option.some.inj hopener]; decide)).elim
  | boolValue =>
    obtain ⟨word, hleaves, -⟩ := file.leaves_of_isLexeme h.mem (by rw [hnode]; rfl)
    obtain ⟨hword, htext⟩ := file.text_of_leaves_eq_singleton h.mem h.ne_error hleaves
    obtain ⟨t, ht, hboolean⟩ := file.head_of_opener? h.mem
      (show s.node.kind.opener? = some .boolean by rw [hnode]; rfl)
    obtain rfl : word = t := by simpa [hleaves] using ht
    have hboolean := isBoolean_of_mem_lexemes hword hboolean
    rw [htext, Text.trim_of_not_white hboolean.not_white] at hnominal
    exact absurd hboolean (hnominal.isName hboolean.plain).not_isBoolean
  | emptyOption =>
    rw [file.text_of_emptyOption h.mem hnode] at hne
    exact absurd (Text.trim_of_not_white (by simp [Text.isWhite])) hne
  | construction =>
    have henclosed := (file.enclosed_of_intact h.mem h.intact
      (show s.node.kind.closer? = some .rparen by rw [hnode]; rfl)).1
    obtain ⟨d, hd, hcloses⟩ := henclosed.last
    rw [henclosed.trim] at hnominal
    have hspells := hnominal.spells d (List.mem_of_getLast? hd)
    rw [spellsName_of_closes hcloses] at hspells
    cases hspells
  | _ =>
    rw [hnode] at hvalue
    cases hvalue

namespace Checker

variable {c : Checker} {value : Site}

/-- What stands for a value of an enum is spelled like names are. -/
theorem nominal_of_enumTarget? (h : c.file.Has value) {type : DeclaredType}
    (htype : type.file.Has type.site) {found : Definition}
    (hfound : c.enumTarget? value type = some found) : Nominal (c.valueText value) := by
  simp only [enumTarget?, Option.orElse_eq_orElse, Option.orElse_eq_or,
    Option.or_eq_some_iff] at hfound
  rcases hfound with hfound | ⟨-, hfound⟩
  · exact c.resolver.nominal_of_resolve? h hfound
  · split at hfound
    · cases hfound
    · rename_i hplain
      have hplain : '.' ∉ (c.valueText value).toList := by simpa using hplain
      exact ((c.resolver.nominal_of_resolve? htype hfound).behind hplain).nominal hplain

theorem nameRef_of_enumTarget? (h : WholeValue c.file value) (hne : c.valueText value ≠ "_")
    {type : DeclaredType} (htype : type.file.Has type.site) {found : Definition}
    (hfound : c.enumTarget? value type = some found) : value.kind = .nameRef :=
  h.nameRef_of_nominal hne
    (nominal_of_enumTarget? (SchemaFile.has_of_mem_sites h.site) htype hfound)

end Checker

end SchemaLang
