import SchemaLang.Proofs.Judging

/-!
# Checking in two editions

Checking one file in two editions gives findings that look the same, in the same
order. Each rule of the checker is shown to agree on twin sites, from the values
up to the file. The bare names that a rule has judged are the same numbers in
both editions, so later places leave out the same names.
-/

set_option autoImplicit false

namespace SchemaLang

namespace Forest

def bareNameIds : Forest (Nat × Shape) Empty → List Nat
  | .nil => []
  | .leaf _ next => next.bareNameIds
  | .node a inside next =>
    match a.2.kind with
    | .nameRef => a.1 :: next.bareNameIds
    | .construction => next.bareNameIds
    | _ => inside.bareNameIds ++ next.bareNameIds

theorem bareNames_bare (f : Forest Mark Token) : f.bareNames = f.gist.bare.bareNameIds := by
  induction f with
  | nil => rfl
  | leaf t next ih =>
    rw [gist]
    split <;> exact ih
  | node mark inside next ihi ihn =>
    rw [gist, bare, bareNames, bareNameIds]
    exact ihi ▸ ihn ▸ rfl

end Forest

namespace TwinSite

variable {f g : SchemaFile} {s t : Site} (h : TwinSite f g s t)
include h

theorem childSites (kind : NodeKind) :
    List.Forall₂ (fun x y => TwinSite f g x y ∧ x.kind = kind ∧ x.node ∈ s.node.children)
      (Checker.childSites s kind) (Checker.childSites t kind) := by
  rw [Checker.childSites, Checker.childSites, List.forall₂_map_left_iff,
    List.forall₂_map_right_iff]
  refine ((List.forall₂_and_left _ _).mpr
    ⟨fun c hc => List.mem_of_mem_filter hc, h.node.childrenOfKind kind⟩).imp ?_
  rintro c d ⟨hc, hcd, hkind⟩
  exact ⟨h.child hcd, hkind, hc⟩

end TwinSite

namespace Editions

open Checker

variable [Likeness] {γ : Type} {v w : Problem → Option γ} {f g : SchemaFile} {r : Resolver}
  (h : Editions r v w f g) {s t : Site} {m n : Node} {d? e? : Option Definition} {d e : Definition}

/-! ## Names -/

omit [Likeness] h in
theorem text (hmn : Twin f g m n) (hkind : m.kind.isFixed = true) :
    (Checker.mk f r).text m = (Checker.mk g r).text n := hmn.text hkind

omit [Likeness] h in
theorem agree_setAside (hmn : Twin f g m n) : (setAside m).Agree v w (setAside n) := by
  refine .judge ?_
  rw [Forest.bareNames_bare, Forest.bareNames_bare, hmn.inside_bare]

include h

theorem agree_unresolved {problem : Problem}
    (hproblem : (problem.code != .nameMismatch) = true) :
    ((Checker.mk f r).unresolved problem m).Agree v w ((Checker.mk g r).unresolved problem n) :=
  ⟨by rw [unresolved, unresolved, Findings.seen_cons, Findings.seen_cons, h.same _ hproblem]; rfl,
    rfl⟩

theorem agree_targetExists (hmn : Twin f g m n) (hkind : m.kind.isFixed = true)
    (htarget : Option.Rel (Akin f g) d? e?) : ((Checker.mk f r).checkTargetExists m d?).Agree v w
      ((Checker.mk g r).checkTargetExists n e?) := by
  have hnone : d?.isNone = e?.isNone := by cases htarget <;> rfl
  unfold checkTargetExists
  rw [text hmn hkind]
  refine .ite ?_ (h.agree_unresolved rfl) .none
  rw [hnone, h.nodes.knowsStandard]

theorem agree_unmatched {u u' : Node} (hu : Twin f g u u') (hmn : Twin f g m n)
    (hkind : m.kind.isFixed = true) (htarget : Option.Rel (Akin f g) d? e?) :
    ((Checker.mk f r).checkUnmatched u m d?).Agree v w
      ((Checker.mk g r).checkUnmatched u' n e?) :=
  (h.agree_targetExists hmn hkind htarget).append
    (.ite (by rw [isSome_eq_of_rel htarget]) (agree_setAside hu) .none)

/-! ## Arguments -/

theorem agree_withFields (hmn : Twin f g m n) (hkind : m.kind.isFixed = true)
    (htarget : Option.Rel (Akin f g) d? e?) {check check' : Definition → List Node → Findings}
    (hcheck : ∀ d e, d? = some d → d.isInstantiable = true → Akin f g d e →
      (check d (d.file.orderedFields d.site.node)).Agree v w
        (check' e (e.file.orderedFields e.site.node))) :
    ((Checker.mk f r).withFields m d? check).Agree v w
      ((Checker.mk g r).withFields n e? check') := by
  cases htarget with
  | none => exact h.agree_targetExists hmn hkind .none
  | @some d e hde =>
    rw [withFields, withFields, text hmn hkind, hde.kind, ← hde.isInstantiable]
    split
    · exact hcheck d e rfl ‹_› hde
    · exact h.agree_of rfl

theorem agree_forField (hde : Akin f g d e) (hfield : Twin d.file e.file m n)
    (hst : TwinValue f g s t) :
    ((Checker.mk f r).checkForField d m s).Agree v w ((Checker.mk g r).checkForField e n t) := by
  have htype := hfield.firstChild? .fieldType
  unfold checkForField SchemaFile.fieldType?
  generalize m.firstChild? .fieldType = m?, n.firstChild? .fieldType = n? at htype
  cases htype with
  | none => exact .none
  | some htype =>
    exact h.agree_value hde.file hst ((hde.site.child hfield).child htype.1) htype.2

theorem agree_positional (hmn : Twin f g m n) (hkind : m.kind.isFixed = true)
    (htarget : Option.Rel (Akin f g) d? e?) {x y : Site}
    (hxy : TwinSite f g x y) (harguments : x.kind = .arguments) (hintact : x.node.Intact) :
    ((Checker.mk f r).checkPositional s m d? x).Agree v w
      ((Checker.mk g r).checkPositional t n e? y) := by
  refine h.agree_withFields hmn hkind htarget fun d e _ _ hde => ?_
  have hfields := hde.site.node.orderedFields
  have hparts := hxy.values hintact (.inr (.inl harguments))
  dsimp only
  rw [hfields.length_eq, hparts.length_eq]
  refine .ite .rfl ?_ (.append (h.agree_of rfl) (agree_setAside hxy.node))
  exact .all (forall₂_zip_zip hparts hfields) fun p q hpq => h.agree_forField hde hpq.2 hpq.1

omit [Likeness] h in
/-- The value of a whole named argument is the first thing beside its name. -/
theorem namedValue? (hst : TwinSite f g s t) (hintact : s.node.Intact)
    (hkind : s.kind = .namedArgument) (hmn : Twin f g m n)
    (hname : s.node.firstChild? .fieldRef = some m) :
    Option.Rel (TwinValue f g) (Checker.namedValue? s m) (Checker.namedValue? t n) := by
  have hmem := hst.below_root (by simp [hkind])
  obtain ⟨name, rest, hchildren, hfieldRef, hrest⟩ := f.named_of_intact hmem hintact hkind
  obtain rfl : name = m := by
    rw [Node.firstChild?, hchildren, List.find?_cons_of_pos (by simp [hfieldRef])] at hname
    exact Option.some.inj hname
  refine rel_imp (rel_find? hst.parts fun p q hpq => by rw [hpq.1.id, hmn.id]) ?_
  rintro p q ⟨⟨hpq, hp⟩, hid⟩
  rw [hchildren] at hp
  rcases List.mem_cons.mp hp with hsame | hp
  · simp [Site.id, hsame] at hid
  · obtain ⟨hin, hvalue⟩ := hrest p.node hp
    exact ⟨hpq, hin, hvalue⟩

theorem agree_namedArgument (hde : Akin f g d e) (hfield : Twin d.file e.file m n)
    (hst : TwinSite f g s t) (hintact : s.node.Intact) (hkind : s.kind = .namedArgument)
    (hcompares : ∀ x, s.node.firstChild? .fieldRef = some x →
      (Checker.mk f r).Compares x ((d.file.fieldName? m).getD "")) :
    ((Checker.mk f r).checkNamedArgument d m s).Agree v w
      ((Checker.mk g r).checkNamedArgument e n t) := by
  have hname := hst.node.firstChild? .fieldRef
  cases hx : s.node.firstChild? .fieldRef with
  | none =>
    rw [hx] at hname
    unfold checkNamedArgument
    rw [hx]
    generalize t.node.firstChild? .fieldRef = y? at hname
    cases hname with
    | none => exact .none
  | some x =>
    rw [hx] at hname
    cases hy : t.node.firstChild? .fieldRef with
    | none =>
      rw [hy] at hname
      cases hname
    | some y =>
      rw [hy] at hname
      cases hname with
      | some hxy =>
        rw [checkNamedArgument_of_written hx, checkNamedArgument_of_written hy, ← hfield.fieldName?]
        refine .append ⟨h.names hxy.1 (hcompares x hx), rfl⟩ ?_
        have hvalue := namedValue? hst hintact hkind hxy.1 hx
        generalize Checker.namedValue? s _ = v?, Checker.namedValue? t _ = w? at hvalue
        cases hvalue with
        | none => exact .none
        | some hvalue => exact h.agree_forField hde hfield hvalue

theorem agree_namedArguments (hmn : Twin f g m n) (hkind : m.kind.isFixed = true)
    (htarget : Option.Rel (Akin f g) d? e?) {xs ys : List Site}
    (hxs : List.Forall₂ (fun x y => TwinSite f g x y ∧ x.kind = .namedArgument ∧ x.node.Intact)
      xs ys)
    (hcompares : ∀ d, d? = some d → d.isInstantiable = true →
      (d.file.orderedFields d.site.node).length = xs.length →
      ∀ p ∈ xs.zip (d.file.orderedFields d.site.node), ∀ x,
        p.1.node.firstChild? .fieldRef = some x →
        (Checker.mk f r).Compares x ((d.file.fieldName? p.2).getD "")) :
    ((Checker.mk f r).checkNamedArguments s m d? xs).Agree v w
      ((Checker.mk g r).checkNamedArguments t n e? ys) := by
  refine h.agree_withFields hmn hkind htarget fun d e hd hinstantiable hde => ?_
  have hfields := hde.site.node.orderedFields
  rw [← hfields.length_eq, ← hxs.length_eq]
  split
  · rename_i hcount
    refine .all ((List.forall₂_and_left _ _).mpr
      ⟨hcompares d hd hinstantiable hcount, forall₂_zip_zip hxs hfields⟩) ?_
    exact fun p q ⟨hcompares, ⟨hpq, hargument, hintact⟩, hfield⟩ =>
      h.agree_namedArgument hde hfield hpq hintact hargument hcompares
  · exact .append (h.agree_of rfl) (.all hxs fun x y hxy => agree_setAside hxy.1.node)

omit [Likeness] h in
theorem intact (hst : TwinSite f g s t) (hvalues : s.kind.holdsValues = true)
    (hcomplete : s.node.incomplete = false) : s.node.Intact := by
  refine f.intact_of_holdsValues (hst.below_root fun hroot => ?_) hvalues hcomplete
  rw [hroot] at hvalues
  cases hvalues

theorem agree_tag (hs : s ∈ f.sites) (htag : s.kind = .tag) (hst : TwinSite f g s t) :
    ((Checker.mk f r).checkTag s).Agree v w ((Checker.mk g r).checkTag t) := by
  have hname := rel_filter (rel_head? hst.node.children)
    fun x y hxy => show decide (x.kind = .typeRef) = decide (y.kind = .typeRef) by rw [hxy.kind]
  have hnamed := hst.childSites .namedArgument
  have harguments := rel_head? (hst.childSites .arguments)
  unfold checkTag
  dsimp only
  generalize hm : Option.filter _ s.node.children.head? = m?,
    Option.filter _ t.node.children.head? = n? at hname
  generalize hxs : Checker.childSites s .namedArgument = xs,
    Checker.childSites t .namedArgument = ys at hnamed
  generalize hx : (Checker.childSites s .arguments).head? = x?,
    (Checker.childSites t .arguments).head? = y? at harguments
  cases hname with
  | none => exact .none
  | @some m n hmn =>
    obtain ⟨hmn, hkind⟩ := hmn
    have hfixed : m.kind.isFixed = true := by
      rw [of_decide_eq_true hkind]
      rfl
    dsimp only
    rw [← text hmn hfixed]
    have htarget := h.resolve? hst ((Checker.mk f r).text m)
    generalize hd : (Checker.mk f r).resolve? s _ = d?, (Checker.mk g r).resolve? t _ = e?
      at htarget
    rw [← hst.node.incomplete, ← any_eq_of_rel harguments fun _ _ hxy => hxy.1.node.incomplete,
      ← any_eq_of_forall₂ hnamed fun _ _ hxy => hxy.1.node.incomplete]
    split
    · exact h.agree_unmatched hst.node hmn hfixed htarget
    · -- where arguments are matched, none of them was cut short
      rename_i hwhole
      simp only [Bool.or_eq_true, not_or, List.any_eq_true, not_exists, not_and,
        Bool.not_eq_true] at hwhole
      obtain ⟨⟨hcomplete, hlist⟩, hwholes⟩ := hwhole
      cases harguments with
      | some hxy =>
        exact h.agree_positional hmn hfixed htarget hxy.1 hxy.2.1
          (intact hxy.1 (by rw [hxy.2.1]; rfl) hlist)
      | none =>
        have hintact : List.Forall₂ (fun x y => TwinSite f g x y ∧ x.kind = .namedArgument ∧
            x.node.Intact) xs ys := by
          refine ((List.forall₂_and_left _ _).mpr ⟨hwholes, hnamed⟩).imp ?_
          rintro x y ⟨hcomplete, hxy, hargument, -⟩
          exact ⟨hxy, hargument, intact hxy (by rw [hargument]; rfl) hcomplete⟩
        cases hnamed with
        | nil => exact h.agree_unmatched hst.node hmn hfixed htarget
        | @cons x y xs ys =>
          refine h.agree_namedArguments hmn hfixed htarget hintact
            fun d hsome hinstantiable hcount p hp z hz => ?_
          have hmatch : (Checker.mk f r).Matches s d :=
            matches_of_named hs htag hm hcomplete (by rwa [hxs]) hx (by simp [hxs])
              (hd.trans hsome) hinstantiable (by rwa [hxs])
          exact ⟨s, d, p.1, p.2, hmatch, by rwa [hxs], hz, rfl⟩

theorem agree_construction (hst : TwinSite f g s t) :
    ((Checker.mk f r).checkConstruction s).Agree v w ((Checker.mk g r).checkConstruction t) := by
  have hname := hst.node.firstChild? .constructorName
  have harguments := rel_head? (hst.childSites .arguments)
  unfold checkConstruction
  generalize s.node.firstChild? .constructorName = m?, t.node.firstChild? .constructorName = n?
    at hname
  generalize (Checker.childSites s .arguments).head? = x?,
    (Checker.childSites t .arguments).head? = y? at harguments
  cases hname with
  | none => exact .none
  | @some m n hmn =>
    obtain ⟨hmn, hkind⟩ := hmn
    have hfixed : m.kind.isFixed = true := by
      rw [hkind]
      rfl
    dsimp only
    rw [text hmn hfixed]
    have htarget := h.resolve? hst ((Checker.mk g r).text n)
    generalize (Checker.mk f r).resolve? s _ = d?, (Checker.mk g r).resolve? t _ = e? at htarget
    cases harguments with
    | none => exact h.agree_unmatched hst.node hmn hfixed htarget
    | some hxy =>
      dsimp only
      rw [← hst.node.incomplete, ← hxy.1.node.incomplete]
      split
      · exact h.agree_unmatched hst.node hmn hfixed htarget
      · rename_i hwhole
        simp only [Bool.or_eq_true, not_or, Bool.not_eq_true] at hwhole
        exact h.agree_positional hmn hfixed htarget hxy.1 hxy.2.1
          (intact hxy.1 (by rw [hxy.2.1]; rfl) hwhole.2)

/-! ## Places -/

theorem agree_typeName (hst : TwinSite f g s t) (hkind : s.kind.isFixed = true) :
    ((Checker.mk f r).checkTypeName s).Agree v w ((Checker.mk g r).checkTypeName t) := by
  unfold checkTypeName
  dsimp only
  rw [text hst.node hkind]
  refine .ite .rfl .none ?_
  have hfound := h.resolve? hst ((Checker.mk g r).text t.node)
  generalize (Checker.mk f r).resolve? s _ = d?, (Checker.mk g r).resolve? t _ = e? at hfound
  cases hfound with
  | none => exact .ite (by rw [h.nodes.knowsStandard]) .none (h.agree_unresolved rfl)
  | some hde =>
    dsimp only
    rw [hde.kind]
    exact .ite (by rw [hde.isType]) .none (h.agree_of rfl)

theorem agree_fieldType (hst : TwinSite f g s t) (hkind : s.kind = .fieldType) :
    ((Checker.mk f r).checkFieldType s).Agree v w ((Checker.mk g r).checkFieldType t) := by
  have hmem := hst.below_root (by simp [hkind])
  obtain ⟨name, parameters, hnodes, hname, hparameters, -⟩ := f.fieldType_children hmem hkind
  have hchildren := hst.children
  unfold checkFieldType
  rw [Site.children, hnodes] at hchildren ⊢
  generalize t.children = ys at hchildren
  cases hchildren with
  | cons hhead htail =>
    have hfixed : name.kind.isFixed = true := by
      rw [hname]
      rfl
    dsimp only
    refine .append (h.agree_typeName hhead hfixed) (.ite ?_ ?_ .none)
    · rw [text hhead.node hfixed]
    · refine .all ((List.forall₂_and_left _ _).mpr ⟨fun x hx => ?_, htail⟩) fun x y hxy =>
        h.agree_typeName hxy.2 hxy.1
      obtain ⟨p, hp, rfl⟩ := List.mem_map.mp hx
      show p.kind.isFixed = true
      rw [hparameters p hp]
      rfl

theorem agree_command (hst : TwinSite f g s t) :
    ((Checker.mk f r).checkCommand s).Agree v w ((Checker.mk g r).checkCommand t) :=
  .all (hst.childSites .typeRef) fun x y hxy => h.agree_typeName hxy.1 (by rw [hxy.2.1]; rfl)

theorem agree_bareName (judged : List Nat) (hst : TwinSite f g s t) (hkind : s.kind = .nameRef) :
    ((Checker.mk f r).checkBareName judged s).Agree v w
      ((Checker.mk g r).checkBareName judged t) := by
  have hfixed : s.node.kind.isFixed = true := by
    rw [show s.node.kind = .nameRef from hkind]
    rfl
  have hnone : ((Checker.mk f r).resolve? s ((Checker.mk g r).text t.node)).isNone =
      ((Checker.mk g r).resolve? t ((Checker.mk g r).text t.node)).isNone := by
    have hfound := h.resolve? hst ((Checker.mk g r).text t.node)
    generalize (Checker.mk f r).resolve? s _ = d?, (Checker.mk g r).resolve? t _ = e? at hfound
    cases hfound <;> rfl
  unfold checkBareName
  dsimp only
  rw [text hst.node hfixed]
  refine .ite (by rw [hst.id]) .none (.ite ?_ (h.agree_unresolved rfl) .none)
  rw [hnone, h.nodes.knowsStandard]

theorem seen_duplicateNumbers {seen seen' fields fields' : List (Nat × Node)}
    (hseen : List.Forall₂ (fun p q => p.1 = q.1 ∧ Twin f g p.2 q.2) seen seen')
    (hfields : List.Forall₂ (fun p q => p.1 = q.1 ∧ Twin f g p.2 q.2) fields fields') :
    Findings.seen v ((Checker.mk f r).duplicateNumbers seen fields) =
      Findings.seen w ((Checker.mk g r).duplicateNumbers seen' fields') := by
  induction hfields generalizing seen seen' with
  | nil => rfl
  | @cons p q fields fields' hpq hrest ih =>
    obtain ⟨number, field⟩ := p
    obtain ⟨_, field'⟩ := q
    obtain ⟨rfl, hfield⟩ := hpq
    have hfound := rel_find? (p := fun x => decide (x.1 = number))
      (q := fun x => decide (x.1 = number)) hseen fun x y hxy => by rw [hxy.1]
    unfold duplicateNumbers
    dsimp only
    generalize seen.find? _ = x?, seen'.find? _ = y? at hfound
    cases hfound with
    | none => exact ih (List.rel_append hseen (.cons ⟨rfl, hfield⟩ .nil))
    | @some x y hxy =>
      have hname : f.fieldName? x.2 = g.fieldName? y.2 := hxy.1.2.fieldName?
      have hsame := h.same (.duplicateNumber number ((g.fieldName? y.2).getD "")) rfl
      dsimp only
      rw [Findings.seen_cons, Findings.seen_cons, hname, hsame, ih hseen]

theorem agree_fieldNumbers (hst : TwinSite f g s t) : ((Checker.mk f r).checkFieldNumbers s).Agree
      v w ((Checker.mk g r).checkFieldNumbers t) :=
  ⟨h.seen_duplicateNumbers .nil hst.node.numberedFields, rfl⟩

/-- One place is judged alike, given the same names judged so far. -/
theorem agree_site (judged : List Nat) (hs : s ∈ f.sites) (hst : TwinSite f g s t) :
    ((Checker.mk f r).checkSite judged s).Agree v w ((Checker.mk g r).checkSite judged t) := by
  unfold checkSite
  rw [← hst.kind]
  split
  · rename_i hkind
    exact h.agree_fieldType hst hkind
  · exact h.agree_command hst
  · rename_i hkind
    exact h.agree_tag hs hkind hst
  · exact h.agree_construction hst
  · rename_i hkind
    exact h.agree_bareName judged hst hkind
  · exact h.agree_fieldNumbers hst
  · exact h.agree_fieldNumbers hst
  · exact .none

/-- All places in turn, as what one of them judged is the same in both editions. -/
theorem seen_checkSites (judged : List Nat) {xs ys : List Site}
    (hxs : List.Forall₂ (fun s t => s ∈ f.sites ∧ TwinSite f g s t) xs ys) :
    Findings.seen v ((Checker.mk f r).checkSites judged xs) =
      Findings.seen w ((Checker.mk g r).checkSites judged ys) := by
  induction hxs generalizing judged with
  | nil => rfl
  | cons hst _ ih =>
    have hsite := h.agree_site judged hst.1 hst.2
    rw [checkSites, checkSites, Findings.seen_append, Findings.seen_append, hsite.reported,
      hsite.judged, ih]

/-- What a check says of the one edition looks as what it says of the other. -/
theorem seen_checkFile : Findings.seen v (checkFile f r) = Findings.seen w (checkFile g r) := by
  have hlisted (u : Problem → Option γ) (file : SchemaFile) :
      Findings.seen u file.syntaxFindings =
        (file.faults.map Prod.snd).filterMap fun fault => u (.syntaxFault fault) := by
    rw [Findings.seen, SchemaFile.syntaxFindings, List.filterMap_map, List.filterMap_map]
    rfl
  have hfaults : Findings.seen v f.syntaxFindings = Findings.seen w g.syntaxFindings := by
    rw [hlisted, hlisted, h.nodes.faults]
    exact List.filterMap_congr fun fault _ => h.same (.syntaxFault fault) rfl
  have hsites : List.Forall₂ (fun s t => s ∈ f.sites ∧ TwinSite f g s t) f.sites g.sites :=
    (List.forall₂_and_left _ _).mpr ⟨fun _ hs => hs, h.nodes.sites⟩
  rw [checkFile, checkFile, Findings.seen_append, Findings.seen_append, hfaults,
    h.seen_checkSites [] hsites]

end Editions

end SchemaLang
