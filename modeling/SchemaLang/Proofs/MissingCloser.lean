import SchemaLang.Proofs.Mending

/-!
# One missing closer costs one fault

When `;` or the bracket of a tag gives way to a blank, the file has one fault,
right behind the token before it, and the walk through its nodes is as it was
but for the construct that was closed there.
-/

set_option autoImplicit false

namespace SchemaLang

namespace SchemaFile

variable (file : SchemaFile)

def Closes (t : Token) : Prop :=
  t ∈ tokenize file.source ∧ (t.kind = .semicolon ∨
    t.kind = .rbracket ∧ ∃ n ∈ file.nodes, n.kind = .tag ∧ n.inside.leaves.getLast? = some t)

def blanked (offset : Nat) : SchemaFile := read file.origin (blankAt file.source offset)

theorem exists_isCloser {t : Token} (hfaults : file.faults = []) (ht : file.Closes t) :
    ∃ ls ms, lexemes file.source = ls ++ t.lexeme :: ms ∧ t.start = totalSize ls ∧
      IsCloser (parseRow (significant (lexemes file.source))) (significant ls) t.lexeme := by
  obtain ⟨hmem, hsemi | ⟨hkind, n, hn, htag, hlast⟩⟩ := ht
  · obtain ⟨ls, ms, hl, hstart⟩ := exists_split_of_mem_tokensFrom hmem
    exact ⟨ls, ms, hl, by rw [hstart, Nat.zero_add], .inl hsemi⟩
  · rcases List.mem_cons.mp hn with rfl | hin
    · rw [file.root_eq] at htag
      cases htag
    obtain ⟨before, inside, after, hat, hinside, -⟩ := file.exists_placed n hin
    rw [hinside, (leaves_locate _ _ _).1] at hlast
    obtain ⟨i, hi, hstart⟩ := exists_of_getLast?_tokensFrom hlast
    refine ⟨before ++ i, after, ?_, by rw [hstart, totalSize_append], .inr ?_⟩
    · rw [← leaves_placedRow, hat.leaves_eq, hi]
      simp
    obtain ⟨after', hat', -⟩ := at_attach_of_placedRow hat
    obtain ⟨inside', after'', hrow, hl⟩ :=
      mirrors_attach _ _ _ (significant_eq_leaves file.source) _ _ _ _ hat'
    obtain ⟨kind, -, hshape⟩ := (file.whole_of_faults hfaults).at hrow
    obtain rfl : kind = .tag := by rw [← htag, Node.kind, hshape]; rfl
    have ht : significant [t.lexeme] = [t.lexeme] := by
      simp [significant, Lexeme.isTrivia, Token.lexeme, hkind, TokenKind.isTrivia]
    refine ⟨_, inside', after'', significant i, hshape ▸ hrow, ?_, significant_append _ _⟩
    rw [hl, hi, significant_append, ht]

theorem exists_row (hfaults : file.faults = []) :
    ∃ row : Forest Shape Token,
      row.mapLeaves Token.lexeme = parseRow (significant (lexemes file.source)) ∧
      row.leaves = significantFrom 0 (lexemes file.source) ∧
      row.Each Shape.Bare ∧ row.Each (fun _ inside => inside.leaves ≠ []) := by
  have hall := leaves_parseWith Parse.maxNesting (significant (lexemes file.source))
  have hfilled := filled_parseWith Parse.maxNesting (significant (lexemes file.source))
  obtain ⟨row, hrow, hleaves⟩ := Forest.exists_mapLeaves_eq Token.lexeme
    (parseRow (significant (lexemes file.source))) (significantFrom 0 (lexemes file.source))
    (by rw [lexeme_significantFrom]; exact hall.symm)
  have hsound := hfilled.and (file.whole_of_faults hfaults)
  rw [parseRow] at hrow
  rw [← hrow, Forest.each_mapLeaves] at hsound
  refine ⟨row, hrow, hleaves, hsound.imp fun shape inside h => ?_,
    hsound.imp fun shape inside h => ?_⟩
  · obtain ⟨hne, kind, -, rfl⟩ := h
    simpa [Shape.Filled, Shape.Bare] using hne
  · obtain ⟨hne, kind, -, rfl⟩ := h
    simpa [Shape.Filled] using hne

/-- The significant tokens before and behind the closer are those of the blanked file. -/
theorem exists_tokens {t : Token} (hfaults : file.faults = []) (ht : file.Closes t) :
    ∃ before after : List Token,
      significantFrom 0 (lexemes file.source) = before ++ t :: after ∧
      significantFrom 0 (lexemes (file.blanked t.start).source) = before ++ after ∧
      (file.blanked t.start).source.utf8ByteSize = file.source.utf8ByteSize ∧
      IsCloser (parseRow (significant (lexemes file.source))) (before.map Token.lexeme)
        t.lexeme := by
  obtain ⟨ls, ms, hl, hstart, hcloser⟩ := file.exists_isCloser hfaults ht
  have hkind : t.kind = .semicolon ∨ t.kind = .rbracket := ht.2.imp id And.left
  have htrivia : t.lexeme.isTrivia = false := by
    rcases hkind with h | h <;> simp [Lexeme.isTrivia, Token.lexeme, h, TokenKind.isTrivia]
  obtain ⟨hblank, hsize⟩ := significantFrom_blankAt file.source ls ms t.lexeme hl hkind
  rw [← hstart] at hblank hsize
  refine ⟨significantFrom 0 ls, significantFrom (t.start + t.lexeme.size) ms, ?_, hblank, hsize, ?_⟩
  · rw [hl, significantFrom_append, significantFrom_cons, htrivia, Nat.zero_add, ← hstart]
    rfl
  · rw [lexeme_significantFrom]
    exact hcloser

/-- A walk through the file and one through the blanked file. -/
theorem exists_mended {t : Token} (hfaults : file.faults = []) (ht : file.Closes t) :
    ∃ (p : Token) (e : Nat) (fault : Fault),
      [p, t] <:+: (tokenize file.source).filter (fun u => !u.isTrivia) ∧
      Mended fault p t e file.profiles (file.blanked t.start).profiles := by
  obtain ⟨before, after, htokens, hblank, hsize, hcloser⟩ := file.exists_tokens hfaults ht
  obtain ⟨row, hrow, hleaves, hbare, hfirm⟩ := file.exists_row hfaults
  have hprofiles := file.profiles_eq row hbare hleaves hrow
  have hderivable := file.derivable_of_faults hfaults
  rw [← lexeme_significantFrom 0, htokens, List.map_append, List.map_cons]
    at hrow hcloser hderivable
  obtain ⟨fault, hcut⟩ := cut_parseWith hderivable hcloser
  obtain ⟨row', hcut', hrow'⟩ := hcut.lift hrow (hleaves.trans htokens) (by rw [List.length_map])
  rw [← List.map_append, ← hblank, lexeme_significantFrom] at hrow'
  have hprofiles' := (file.blanked t.start).profiles_eq row' (hcut'.bare hbare)
    (hcut'.leaves_remaining.trans hblank.symm) hrow'
  obtain ⟨p, hp⟩ := Option.ne_none_iff_exists'.mp (mt List.getLast?_eq_none_iff.mp hcut'.ne_nil)
  obtain ⟨e, -, -, hmended⟩ := hcut'.survey hfirm hp (some 0) 0 1 (by simp)
  refine ⟨p, e, fault, ?_, ?_⟩
  · obtain ⟨front, hfront⟩ := List.getLast?_eq_some_iff.mp hp
    refine ⟨front, after, ?_⟩
    show _ = significantFrom 0 (lexemes file.source)
    rw [htokens, hfront]
    simp
  · rw [hprofiles, hprofiles', hcut'.tokens_eq, hsize]
    exact hmended.append_left [_]

/-- A faultless file in which one closer gave way to a blank has one fault, an
empty one at the end of the token `p` before it. Without the fault its nodes
are those of the file, except that the owner of the closer is cut short. -/
theorem one_missing_closer (t : Token) (hfaults : file.faults = []) (ht : file.Closes t) :
    ∃ p : Token, ∃ owner e : Node, ∃ fault : Fault,
      [p, t] <:+: (tokenize file.source).filter (fun u => !u.isTrivia) ∧
      (owner ∈ file.nodes ∧ owner.kind.isTerminated = true ∧ t ∈ owner.tokens) ∧
      (file.blanked t.start).faults = [(e, fault)] ∧ e.kind = .error ∧ e.span = ⟨p.stop, p.stop⟩ ∧
      ((file.blanked t.start).profiles.filter (fun q => q.id != e.id)).map
          (Profile.renumber (leavingOut e.id)) =
        file.profiles.map (fun q => if q.id = owner.id then q.cutShort p.stop else q) := by
  obtain ⟨p, e, fault, hinfix, hmended⟩ := file.exists_mended hfaults ht
  obtain ⟨owner, howner, howns, heq⟩ := hmended.leaves_out file.pairwise_profiles
    (file.blanked t.start).pairwise_profiles (file.blanked t.start).parent_lt_of_mem_profiles
  obtain ⟨s, hs, rfl⟩ := List.mem_map.mp howner
  obtain ⟨front, x, after, hsplit, rfl, hshape, hspan, hfree⟩ :=
    hmended.exists_fault (file.fault_of_mem_profiles hfaults)
  have hx : x.shape.fault? = some fault := by rw [hshape]; rfl
  obtain ⟨s', rfl, hfault⟩ := (file.blanked t.start).faults_eq_singleton hsplit hx hfree
  have hnode : s.node ∈ file.nodes := by
    rw [← map_node_sites]
    exact List.mem_map_of_mem hs
  have htokens := List.mem_of_getLast? howns.last
  exact ⟨p, s.node, s'.node, fault, hinfix,
    ⟨hnode, howns.isTerminated, (List.mem_filter.mp htokens).1⟩, hfault,
    congrArg Shape.kind hshape, hspan, heq⟩

theorem one_missing_bracket :
    (read (.unsaved 0) "[T(1)] package a;").faults = [] ∧
      (read (.unsaved 0) "[T(1)] package a;").Closes ⟨.rbracket, "]", 5⟩ ∧
      ∃ e fault, (read (.unsaved 0) "[T(1)  package a;").faults = [(e, fault)] := by
  have hfaults : (read (.unsaved 0) "[T(1)] package a;").faults = [] :=
    List.isEmpty_iff.mp (by decide +kernel)
  have ht : (read (.unsaved 0) "[T(1)] package a;").Closes ⟨.rbracket, "]", 5⟩ :=
    ⟨by decide +kernel, .inr ⟨rfl, by decide +kernel⟩⟩
  obtain ⟨p, owner, e, fault, -, -, hfault, -⟩ := one_missing_closer _ _ hfaults ht
  have hblanked : (read (.unsaved 0) "[T(1)] package a;").blanked 5 =
      read (.unsaved 0) "[T(1)  package a;" := congrArg (read (.unsaved 0)) (by decide +kernel)
  exact ⟨hfaults, ht, e, fault, hblanked ▸ hfault⟩

end SchemaFile

end SchemaLang
