import SchemaLang.Proofs.LiteralTexts

/-!
# What may change behind a lexeme

A rule looks past its lexeme for one reason only, to see that nothing there
carries the lexeme on. So a lexeme stays as it is when what stands behind it
changes, as long as no character comes there that could carry it on.
-/

set_option autoImplicit false

namespace SchemaLang

namespace Scan

/-! ## What stands behind a lexeme -/

def Admits (p : Char → Bool) (rest rest' : List Char) : Prop :=
  rest'.head?.any p = true → rest.head?.any p = true

theorem admits_nil (p : Char → Bool) (rest : List Char) : Admits p rest [] := by
  intro h
  simp at h

theorem admits_of_head? {p : Char → Bool} {rest rest' : List Char}
    (h : rest'.head? = rest.head?) : Admits p rest rest' := by
  intro hp
  rwa [← h]

theorem Admits.any_eq_false {p : Char → Bool} {rest rest' : List Char} (h : Admits p rest rest')
    (hp : rest.head?.any p = false) : rest'.head?.any p = false := by
  cases hp' : rest'.head?.any p with
  | false => rfl
  | true =>
    rw [h hp'] at hp
    cases hp

structure NameSeam (rest rest' : List Char) : Prop where
  starts : Admits startsName rest rest'
  continues : Admits (fun c => continuesName c || c == '.') rest rest'

structure Seam (rest rest' : List Char) : Prop where
  white : Admits Text.isWhite rest rest'
  digit : Admits Char.isDigit rest rest'
  mark : Admits (fun c => c == '/' || c == '*') rest rest'
  line : Admits (· != '\n') rest rest'
  ends : rest = [] → rest' = []

theorem nameSeam_nil (rest : List Char) : NameSeam rest [] :=
  ⟨admits_nil _ rest, admits_nil _ rest⟩

theorem seam_nil (rest : List Char) : Seam rest [] :=
  ⟨admits_nil _ rest, admits_nil _ rest, admits_nil _ rest, admits_nil _ rest, fun _ => rfl⟩

theorem nameSeam_of_head? {rest rest' : List Char} (h : rest'.head? = rest.head?) :
    NameSeam rest rest' := ⟨admits_of_head? h, admits_of_head? h⟩

theorem seam_of_head? {rest rest' : List Char} (h : rest'.head? = rest.head?) :
    Seam rest rest' := by
  refine ⟨admits_of_head? h, admits_of_head? h, admits_of_head? h, admits_of_head? h, ?_⟩
  intro hnil
  rw [hnil] at h
  exact List.head?_eq_none_iff.mp h

/-! ## The rules one by one -/

variable {rest rest' : List Char}

/-- A run is a row of one sort with nothing of that sort behind it. -/
theorem runLength_eq_length_iff {f : Char → Bool} {u : List Char} :
    runLength f (u ++ rest) = u.length ↔ (∀ x ∈ u, f x = true) ∧ rest.head?.any f = false := by
  induction u with
  | nil =>
    cases rest with
    | nil => simp [runLength]
    | cons c rest => cases hc : f c <;> simp [runLength, hc]
  | cons x u ih =>
    rw [List.cons_append, runLength, List.takeWhile_cons, List.forall_mem_cons]
    cases hx : f x with
    | false => simp
    | true => simpa [runLength] using ih

theorem runLength_seam {f : Char → Bool} (hf : Admits f rest rest') {u : List Char}
    (h : runLength f (u ++ rest) = u.length) : runLength f (u ++ rest') = u.length := by
  rw [runLength_eq_length_iff] at h ⊢
  exact ⟨h.1, hf.any_eq_false h.2⟩

theorem stringTail_seam (hline : Admits (· != '\n') rest rest') {u : List Char}
    (h : stringTail (u ++ rest) = u.length) : stringTail (u ++ rest') = u.length := by
  induction u with
  | nil =>
    have hrest : rest.head?.any (· != '\n') = false := by
      cases rest with
      | nil => rfl
      | cons c rest =>
        by_cases hbreak : c = '\n'
        · simp [hbreak]
        · by_cases hquote : c = '"' <;> simp [stringTail, hbreak, hquote] at h
    have hrest' := hline.any_eq_false hrest
    cases rest' with
    | nil => rfl
    | cons c rest' =>
      obtain rfl : c = '\n' := by simpa using hrest'
      rfl
  | cons x u ih =>
    simp only [stringTail, List.cons_append, List.length_cons] at h ⊢
    by_cases hquote : x = '"'
    · rw [if_pos hquote] at h ⊢
      exact h
    by_cases hbreak : x = '\n'
    · rw [if_neg hquote, if_pos hbreak] at h
      omega
    rw [if_neg hquote, if_neg hbreak] at h ⊢
    rw [ih (by omega)]

theorem eq_nil_of_blockTail_eq_zero {cs : List Char} (h : blockTail cs = 0) : cs = [] := by
  cases cs with
  | nil => rfl
  | cons c cs =>
    rw [blockTail] at h
    split at h <;> omega

theorem blockTail_seam (hends : rest = [] → rest' = []) {u : List Char}
    (h : blockTail (u ++ rest) = u.length) : blockTail (u ++ rest') = u.length := by
  induction u with
  | nil =>
    have hrest : rest = [] := eq_nil_of_blockTail_eq_zero h
    rw [hends hrest]
    rfl
  | cons x u ih =>
    rw [List.cons_append, blockTail] at h ⊢
    cases u with
    | nil =>
      -- a comment that is not closed takes all there is
      have hrest : rest = [] := by
        apply eq_nil_of_blockTail_eq_zero
        split at h
        · cases h
        · exact Nat.succ.inj h
      rw [hrest] at h
      rw [hends hrest]
      exact h
    | cons y u =>
      rw [List.cons_append, List.head?_cons] at h ⊢
      by_cases hclose : x = '*' ∧ some y = some '/'
      · rw [if_pos hclose] at h ⊢
        exact h
      · rw [if_neg hclose] at h ⊢
        exact congrArg (· + 1) (ih (Nat.succ.inj h))

theorem commentTail?_seam (hs : Seam rest rest') {x : Char} {u : List Char}
    (h : commentTail? x (u ++ rest) = some u.length) :
    commentTail? x (u ++ rest') = some u.length := by
  by_cases hx : x = '/'
  · subst hx
    cases u with
    | nil =>
      unfold commentTail? at h
      rw [if_pos rfl] at h
      split at h
      · rename_i hcs
        rw [List.nil_append] at hcs
        rw [List.nil_append, hcs] at h
        simp [runLength] at h
      · simp at h
      · cases h
    | cons y u =>
      by_cases hline : y = '/'
      · subst hline
        have hrun : runLength (· != '\n') (('/' :: u) ++ rest) = ('/' :: u).length :=
          Option.some.inj h
        exact congrArg some (runLength_seam hs.line hrun)
      by_cases hblock : y = '*'
      · subst hblock
        have hblock : blockTail (u ++ rest) + 1 = u.length + 1 := Option.some.inj h
        have htail := blockTail_seam hs.ends (Nat.succ.inj hblock)
        exact congrArg (fun n => some (n + 1)) htail
      · simp [commentTail?, hline, hblock] at h
  · simp [commentTail?, hx] at h

theorem commentTail?_none_seam (hmark : Admits (fun c => c == '/' || c == '*') rest rest')
    {x : Char} {u : List Char} (h : commentTail? x (u ++ rest) = none) :
    commentTail? x (u ++ rest') = none := by
  have hnone {cs : List Char} : commentTail? '/' cs = none ↔
      cs.head?.any (fun c => c == '/' || c == '*') = false := by
    unfold commentTail?
    rw [if_pos rfl]
    split
    · simp
    · simp
    · rename_i hslash hstar
      cases cs with
      | nil => simp
      | cons c cs =>
        have hc : c ≠ '/' := fun hc => hslash cs (by rw [hc])
        have hc' : c ≠ '*' := fun hc => hstar cs (by rw [hc])
        simp [hc, hc']
  by_cases hx : x = '/'
  · subst hx
    rw [hnone] at h ⊢
    cases u with
    | nil => exact hmark.any_eq_false h
    | cons y u => exact h
  · simp [commentTail?, hx]

/-! ## Names -/

theorem head?_any_continues {cs : List Char} (h : cs.head?.any startsName = true) :
    cs.head?.any (fun c => continuesName c || c == '.') = true := by
  cases cs with
  | nil => cases h
  | cons c cs =>
    have hc : startsName c = true := h
    simp [continuesName_of_startsName hc]

/-- Where a name ends at once, nothing of a name comes next. -/
theorem nameTail_eq_zero_iff {cs : List Char} :
    nameTail cs = 0 ↔ cs.head?.any (fun c => continuesName c || c == '.') = false := by
  cases cs with
  | nil => simp [nameTail]
  | cons c cs =>
    rw [nameTail]
    by_cases hc : continuesName c = true
    · simp [hc]
    by_cases hdot : c = '.'
    · rw [if_neg hc, if_pos hdot]
      split <;> simp [hdot]
    · simp [hc, hdot]

theorem nameTail_seam (hs : NameSeam rest rest') {u : List Char}
    (h : nameTail (u ++ rest) = u.length) : nameTail (u ++ rest') = u.length := by
  induction u with
  | nil => exact nameTail_eq_zero_iff.mpr (hs.continues.any_eq_false (nameTail_eq_zero_iff.mp h))
  | cons x u ih =>
    simp only [List.cons_append, nameTail, List.length_cons] at h ⊢
    by_cases hx : continuesName x = true
    · rw [if_pos hx] at h ⊢
      rw [ih (Nat.succ.inj h)]
    by_cases hdot : x = '.'
    · rw [if_neg hx, if_pos hdot] at h ⊢
      cases u with
      | cons y u =>
        have hhead : (y :: u ++ rest').head? = (y :: u ++ rest).head? := rfl
        rw [hhead]
        split at h
        · rw [if_pos ‹_›, ih (Nat.succ.inj h)]
        · rw [if_neg ‹_›]
          exact h
      | nil =>
        -- a dot at the end, so no segment follows it
        have hrest : rest.head?.any startsName = false := by
          by_contra hstarts
          rw [Bool.not_eq_false] at hstarts
          rw [List.nil_append, if_pos hstarts] at h
          have hnone := nameTail_eq_zero_iff.mp (Nat.succ.inj h)
          rw [head?_any_continues hstarts] at hnone
          cases hnone
        rw [List.nil_append, if_neg (by simp [hs.starts.any_eq_false hrest])]
        rfl
    · rw [if_neg hx, if_neg hdot] at h
      omega

/-- The first character of a name counts with the others. -/
theorem nameTail?_eq_some_iff {x : Char} {cs : List Char} {n : Nat} :
    nameTail? x cs = some n ↔ leadsName x = true ∧ nameTail (x :: cs) = n + 1 := by
  rw [nameTail?, leadsName, nameTail]
  by_cases hx : startsName x = true
  · simp [hx, continuesName_of_startsName hx]
  by_cases hdot : x = '.'
  · subst hdot
    have hstops : continuesName '.' = false := by decide
    simp only [hx, hstops]
    by_cases hsegment : cs.head?.any startsName = true <;> simp [hsegment, eq_comm]
  · simp [hx, hdot]

theorem nameTail?_seam (hs : NameSeam rest rest') {x : Char} {u : List Char}
    (h : nameTail? x (u ++ rest) = some u.length) : nameTail? x (u ++ rest') = some u.length := by
  obtain ⟨hx, htail⟩ := nameTail?_eq_some_iff.mp h
  exact nameTail?_eq_some_iff.mpr ⟨hx, nameTail_seam (u := x :: u) hs htail⟩

/-! ## The words that are no names -/

theorem isAlpha_of_toLower {c : Char} (h : c.toLower.isAlpha = true) : c.isAlpha = true := by
  by_cases hupper : c.isUpper = true
  · exact (isAlpha_iff c).mpr (.inl hupper)
  · have hlower : c.toLower = c := dif_neg fun hrange => hupper ((isUpper_iff c).mpr hrange)
    rwa [hlower] at h

theorem IsBoolean.isAlpha {cs : List Char} (h : IsBoolean cs) : ∀ c ∈ cs, c.isAlpha = true := by
  intro c hc
  apply isAlpha_of_toLower
  have hlower := List.mem_map_of_mem (f := Char.toLower) hc
  rcases h with h | h <;> rw [h] at hlower
  · exact List.all_eq_true.mp (by decide : "true".toList.all Char.isAlpha = true) _ hlower
  · exact List.all_eq_true.mp (by decide : "false".toList.all Char.isAlpha = true) _ hlower

theorem startsName_of_isAlpha {c : Char} (h : c.isAlpha = true) : startsName c = true := by
  rw [startsName, h, Bool.true_or]

theorem booleanTail?_eq_some_iff {x : Char} {u rest : List Char} :
    booleanTail? x (u ++ rest) = some u.length ↔
      IsBoolean (x :: u) ∧ rest.head?.any (fun c => continuesName c || c == '.') = false := by
  have hword {word : String} : wordLength? word (x :: (u ++ rest)) = some (u.length + 1) ↔
        (x :: u).map Char.toLower = word.toList ∧
          rest.head?.any (fun c => continuesName c || c == '.') = false := by
    have htake : (x :: (u ++ rest)).take (u.length + 1) = x :: u := by simp
    have hdrop : (x :: (u ++ rest)).drop (u.length + 1) = rest := by simp
    rw [wordLength?_eq_some_iff, htake, hdrop]
    constructor
    · exact fun h => h.2
    · intro h
      have hlength := congrArg List.length h.1
      rw [List.length_map, List.length_cons, String.length_toList] at hlength
      exact ⟨hlength, h⟩
  rw [booleanTail?, Option.map_eq_some_iff]
  constructor
  · rintro ⟨k, hk, hlength⟩
    have hsome {word : String} (hpos : 0 < word.length)
        (hk : wordLength? word (x :: (u ++ rest)) = some k) :
        wordLength? word (x :: (u ++ rest)) = some (u.length + 1) := by
      obtain rfl := (wordLength?_eq_some_iff.mp hk).1
      rw [hk, ← hlength, Nat.sub_add_cancel hpos]
    rcases Option.or_eq_some_iff.mp hk with hk | ⟨-, hk⟩
    · obtain ⟨hlower, hends⟩ := hword.mp (hsome (by decide) hk)
      exact ⟨.inl hlower, hends⟩
    · obtain ⟨hlower, hends⟩ := hword.mp (hsome (by decide) hk)
      exact ⟨.inr hlower, hends⟩
  · rintro ⟨hlower | hlower, hends⟩
    · exact ⟨u.length + 1, by rw [hword.mpr ⟨hlower, hends⟩]; rfl, rfl⟩
    · have hfirst : wordLength? "true" (x :: (u ++ rest)) = none := by
        apply Option.eq_none_iff_forall_ne_some.mpr
        intro n hn
        obtain ⟨rfl, htrue, -⟩ := wordLength?_eq_some_iff.mp hn
        have hx : x.toLower = 't' := (List.cons.inj htrue).1
        have hx' : x.toLower = 'f' := (List.cons.inj hlower).1
        rw [hx] at hx'
        exact absurd hx' (by decide)
      exact ⟨u.length + 1, by rw [hfirst, hword.mpr ⟨hlower, hends⟩]; rfl, rfl⟩

theorem exists_of_booleanTail? {x : Char} {cs : List Char} {n : Nat}
    (h : booleanTail? x cs = some n) : ∃ u rest, cs = u ++ rest ∧ u.length = n := by
  have hle : n ≤ cs.length := by
    rw [booleanTail?, Option.map_eq_some_iff] at h
    obtain ⟨k, hk, rfl⟩ := h
    have hword {word : String} (hk : wordLength? word (x :: cs) = some k) :
        k - 1 ≤ cs.length := by
      obtain ⟨rfl, hlower, -⟩ := wordLength?_eq_some_iff.mp hk
      have hlength := congrArg List.length hlower
      rw [List.length_map, List.length_take, List.length_cons, String.length_toList] at hlength
      omega
    rcases Option.or_eq_some_iff.mp hk with hk | ⟨-, hk⟩ <;> exact hword hk
  exact ⟨cs.take n, cs.drop n, (List.take_append_drop n cs).symm, List.length_take_of_le hle⟩

theorem booleanTail?_none_of_not_leads {x : Char} (hx : leadsName x = false) (cs : List Char) :
    booleanTail? x cs = none := by
  apply Option.eq_none_iff_forall_ne_some.mpr
  intro n hn
  obtain ⟨u, rest, rfl, rfl⟩ := exists_of_booleanTail? hn
  have halpha := (booleanTail?_eq_some_iff.mp hn).1.isAlpha x List.mem_cons_self
  rw [leadsName, startsName_of_isAlpha halpha] at hx
  cases hx

/-- A name stays a name: neither does it go on nor is it cut short to a word. -/
theorem booleanTail?_none_seam (hs : NameSeam rest rest') {x : Char} {u : List Char}
    (hname : nameTail? x (u ++ rest) = some u.length) (hword : ¬IsBoolean (x :: u)) :
    booleanTail? x (u ++ rest') = none := by
  apply Option.eq_none_iff_forall_ne_some.mpr
  intro n hn
  obtain ⟨v, w, hsplit, rfl⟩ := exists_of_booleanTail? hn
  rw [hsplit] at hn
  obtain ⟨hboolean, hends⟩ := booleanTail?_eq_some_iff.mp hn
  rcases List.append_eq_append_iff.mp hsplit with ⟨a, rfl, rfl⟩ | ⟨a, rfl, rfl⟩
  · cases a with
    | nil => exact hword (by rwa [List.append_nil] at hboolean)
    | cons c a =>
      -- the word takes a letter from behind, so the name would have gone on
      have hc : c.isAlpha = true := hboolean.isAlpha c (by simp)
      have hrest' : (c :: a ++ w).head?.any (fun c => continuesName c || c == '.') = true := by
        simp [continuesName_of_startsName (startsName_of_isAlpha hc)]
      have htail := (nameTail?_eq_some_iff.mp hname).2
      have htake : (x :: (u ++ rest)).take (u.length + 1) = x :: u := by simp
      have hdrop : (x :: (u ++ rest)).drop (u.length + 1) = rest := by simp
      have hstops := @nameTail_stops (x :: (u ++ rest)) (by
        rw [htail, htake]
        intro hdot
        have hletter := hboolean.isAlpha '.' (by
          rw [← List.cons_append]
          exact List.mem_append_left _ hdot)
        exact absurd hletter (by decide))
      rw [htail, hdrop, hs.continues hrest'] at hstops
      cases hstops
  · cases a with
    | nil => exact hword (by rwa [List.append_nil])
    | cons c a =>
      have htake : (v ++ c :: a ++ rest).take (v ++ c :: a).length = v ++ c :: a := List.take_left
      have hspells := spellsName_of_nameTail? hname c (by rw [htake]; simp)
      rw [List.cons_append, List.head?_cons, Option.any_some, ← spellsName, hspells] at hends
      cases hends

/-! ## All rules together -/

def KindSeam : TokenKind → List Char → List Char → Prop
  | .identifier, rest, rest' | .boolean, rest, rest' => NameSeam rest rest'
  | _, rest, rest' => Seam rest rest'

theorem kindSeam_nil (kind : TokenKind) (rest : List Char) : KindSeam kind rest [] := by
  cases kind <;> first | exact nameSeam_nil rest | exact seam_nil rest

theorem kindSeam_of_head? (kind : TokenKind) (h : rest'.head? = rest.head?) :
    KindSeam kind rest rest' := by
  cases kind <;> first | exact nameSeam_of_head? h | exact seam_of_head? h

theorem not_white_of_leads {x : Char} (hx : leadsName x = true) : Text.isWhite x = false := by
  apply isWhite_of_spellsName
  rw [spellsName, Bool.or_eq_true]
  rw [leadsName, Bool.or_eq_true] at hx
  exact hx.imp_left continuesName_of_startsName

/-- What begins like a name is one, or a word that is none. -/
theorem lead_of_leads {x : Char} (hx : leadsName x = true) (cs : List Char) :
    lead x cs = match booleanTail? x cs with
      | some n => (.boolean, n)
      | none => (.identifier, nameTail (x :: cs) - 1) := by
  have hcomment : commentTail? x cs = none := by
    unfold commentTail?
    apply if_neg
    rintro rfl
    revert hx
    decide
  have hname : nameTail? x cs = some (nameTail (x :: cs) - 1) := by
    obtain ⟨n, hn⟩ := Option.isSome_iff_exists.mp (leadsName_of_nameTail?.trans hx)
    rw [hn, (nameTail?_eq_some_iff.mp hn).2]
    rfl
  rw [lead, if_neg (by simp [not_white_of_leads hx]), hcomment, hname]
  cases booleanTail? x cs <;> rfl

theorem lead_of_not_leads {x : Char} (hx : leadsName x = false) (cs : List Char) :
    lead x cs =
      if Text.isWhite x then (.whitespace, runLength Text.isWhite cs)
      else match commentTail? x cs with
        | some n => (.comment, n)
        | none =>
          if x.isDigit then (.integer, runLength Char.isDigit cs)
          else if x = '"' then (.string, stringTail cs)
          else ((punctuation? x).getD .badChar, 0) := by
  have hname : nameTail? x cs = none := by
    rw [← Option.isNone_iff_eq_none, ← Option.not_isSome, leadsName_of_nameTail?, hx]
    rfl
  rw [lead, booleanTail?_none_of_not_leads hx, hname]
  cases commentTail? x cs <;> rfl

theorem lead_seam_of_leads {x : Char} (hx : leadsName x = true) (hs : NameSeam rest rest')
    {u : List Char} (hlength : (lead x (u ++ rest)).2 = u.length) :
    lead x (u ++ rest') = lead x (u ++ rest) := by
  have hlead := lead_of_leads hx (u ++ rest)
  rw [lead_of_leads hx (u ++ rest')]
  cases hboolean : booleanTail? x (u ++ rest) with
  | some n =>
    rw [hboolean] at hlead
    obtain rfl : n = u.length := by rwa [hlead] at hlength
    obtain ⟨hword, hends⟩ := booleanTail?_eq_some_iff.mp hboolean
    rw [booleanTail?_eq_some_iff.mpr ⟨hword, hs.continues.any_eq_false hends⟩, hlead]
  | none =>
    rw [hboolean] at hlead
    obtain ⟨-, hword⟩ := @lead_of_identifier x (u ++ rest) (by rw [hlead])
    rw [hlength, List.take_left] at hword
    have hname : nameTail? x (u ++ rest) = some u.length := by
      obtain ⟨n, hn⟩ := Option.isSome_iff_exists.mp (leadsName_of_nameTail?.trans hx)
      rw [hlead, (nameTail?_eq_some_iff.mp hn).2] at hlength
      rw [hn, ← hlength]
      rfl
    rw [booleanTail?_none_seam hs hname hword, hlead, (nameTail?_eq_some_iff.mp hname).2,
      (nameTail?_eq_some_iff.mp (nameTail?_seam hs hname)).2]

theorem lead_seam_of_not_leads {x : Char} (hx : leadsName x = false) (hs : Seam rest rest')
    {u : List Char} (hlength : (lead x (u ++ rest)).2 = u.length) :
    lead x (u ++ rest') = lead x (u ++ rest) := by
  rw [lead_of_not_leads hx] at hlength ⊢
  rw [lead_of_not_leads hx]
  by_cases hwhite : Text.isWhite x = true
  · rw [if_pos hwhite] at hlength
    have hrun : runLength Text.isWhite (u ++ rest) = u.length := hlength
    rw [if_pos hwhite, if_pos hwhite, runLength_seam hs.white hrun, hrun]
  rw [if_neg hwhite] at hlength
  rw [if_neg hwhite, if_neg hwhite]
  cases hcomment : commentTail? x (u ++ rest) with
  | some n =>
    rw [hcomment] at hlength
    obtain rfl : n = u.length := hlength
    rw [commentTail?_seam hs hcomment]
  | none =>
    rw [hcomment] at hlength
    rw [commentTail?_none_seam hs.mark hcomment]
    by_cases hdigit : x.isDigit = true
    · simp only [if_pos hdigit] at hlength ⊢
      rw [runLength_seam hs.digit hlength, hlength]
    by_cases hquote : x = '"'
    · simp only [if_neg hdigit, if_pos hquote] at hlength ⊢
      rw [stringTail_seam hs.line hlength, hlength]
    · simp only [if_neg hdigit, if_neg hquote]

theorem KindSeam.other {kind : TokenKind} (h : KindSeam kind rest rest')
    (hname : kind ≠ .identifier) (hword : kind ≠ .boolean) : Seam rest rest' := by
  cases kind with
  | identifier => exact absurd rfl hname
  | boolean => exact absurd rfl hword
  | _ => exact h

/-- A lexeme is the same before anything that does not carry it on. -/
theorem lead_seam {x : Char} {u : List Char} (hlength : (lead x (u ++ rest)).2 = u.length)
    (hs : KindSeam (lead x (u ++ rest)).1 rest rest') :
    lead x (u ++ rest') = lead x (u ++ rest) := by
  cases hx : leadsName x with
  | true =>
    apply lead_seam_of_leads hx _ hlength
    rw [lead_of_leads hx] at hs
    cases hboolean : booleanTail? x (u ++ rest) with
    | some n =>
      rw [hboolean] at hs
      exact hs
    | none =>
      rw [hboolean] at hs
      exact hs
  | false =>
    apply lead_seam_of_not_leads hx _ hlength
    apply hs.other
    · intro hname
      rw [(lead_of_identifier hname).1] at hx
      cases hx
    · intro hword
      have hletter := (lead_of_boolean hword).isAlpha x List.mem_cons_self
      rw [leadsName, startsName_of_isAlpha hletter] at hx
      cases hx

/-! ### No rule takes more than there is -/

theorem stringTail_le (cs : List Char) : stringTail cs ≤ cs.length := by
  induction cs with
  | nil => exact le_rfl
  | cons c cs ih =>
    rw [stringTail, List.length_cons]
    split
    · omega
    · split <;> omega

theorem blockTail_le (cs : List Char) : blockTail cs ≤ cs.length := by
  induction cs with
  | nil => exact le_rfl
  | cons c cs ih =>
    rw [blockTail]
    split
    · rename_i hclose
      cases cs with
      | nil => cases hclose.2
      | cons d cs => simp
    · rw [List.length_cons]
      omega

theorem commentTail?_le {x : Char} {cs : List Char} {n : Nat} (h : commentTail? x cs = some n) :
    n ≤ cs.length := by
  unfold commentTail? at h
  split at h
  · split at h
    · obtain rfl := Option.some.inj h
      exact (List.takeWhile_prefix _).length_le
    · rename_i rest
      obtain rfl := Option.some.inj h
      exact Nat.succ_le_succ (blockTail_le rest)
    · cases h
  · cases h

theorem lead_le (x : Char) (cs : List Char) : (lead x cs).2 ≤ cs.length := by
  cases hx : leadsName x with
  | true =>
    rw [lead_of_leads hx]
    cases hboolean : booleanTail? x cs with
    | some n =>
      obtain ⟨u, rest, rfl, rfl⟩ := exists_of_booleanTail? hboolean
      simp
    | none =>
      have hle := nameTail_le (x :: cs)
      rw [List.length_cons] at hle
      exact Nat.sub_le_of_le_add hle
  | false =>
    have hrun (f : Char → Bool) : runLength f cs ≤ cs.length :=
      (List.takeWhile_prefix _).length_le
    rw [lead_of_not_leads hx]
    split
    · exact hrun _
    · split
      · exact commentTail?_le ‹_›
      · split
        · exact hrun _
        · split
          · exact stringTail_le cs
          · exact Nat.zero_le _

end Scan

open Scan

/-! ## Lexemes -/

/-- The rules cut this lexeme when the characters that follow it are these. -/
def Lexeme.EndsBefore (l : Lexeme) (rest : List Char) : Prop :=
  ∃ x u, l.text.toList = x :: u ∧ lead x (u ++ rest) = (l.kind, u.length)

namespace Lexeme.EndsBefore

variable {l : Lexeme} {rest rest' : List Char}

theorem scan_append (h : l.EndsBefore rest) : scan (l.text.toList ++ rest) = l :: scan rest := by
  obtain ⟨x, u, htext, hlead⟩ := h
  rw [htext, List.cons_append, scan_cons, hlead, List.take_left, List.drop_left, ← htext,
    String.ofList_toList]

theorem seam (h : l.EndsBefore rest) (hs : KindSeam l.kind rest rest') : l.EndsBefore rest' := by
  obtain ⟨x, u, htext, hlead⟩ := h
  refine ⟨x, u, htext, ?_⟩
  rw [lead_seam (by rw [hlead]) (by rw [hlead]; exact hs), hlead]

end Lexeme.EndsBefore

theorem endsBefore_of_scan {cs : List Char} {l : Lexeme} {ls : List Lexeme}
    (h : scan cs = l :: ls) : l.EndsBefore (characters ls) ∧ scan (characters ls) = ls := by
  cases cs with
  | nil => simp [scan] at h
  | cons x cs =>
    rw [scan_cons] at h
    obtain ⟨rfl, rfl⟩ := List.cons.inj h
    rw [characters_scan]
    refine ⟨⟨x, cs.take (lead x cs).2, String.toList_ofList, ?_⟩, rfl⟩
    rw [List.take_append_drop, List.length_take_of_le (lead_le x cs)]

theorem scan_characters_of_append {cs : List Char} {ls ms : List Lexeme}
    (h : scan cs = ls ++ ms) : scan (characters ls) = ls := by
  induction ls generalizing cs with
  | nil => simp [characters, scan]
  | cons l ls ih =>
    obtain ⟨hends, hrest⟩ := endsBefore_of_scan h
    have hls := ih hrest
    have hcut : l.EndsBefore (characters ls) := by
      apply hends.seam
      cases ls with
      | nil => exact kindSeam_nil _ _
      | cons m ls =>
        obtain ⟨⟨x, u, htext, -⟩, -⟩ := endsBefore_of_scan hls
        apply kindSeam_of_head?
        simp [characters, htext]
    rw [show characters (l :: ls) = l.text.toList ++ characters ls from rfl, hcut.scan_append, hls]

end SchemaLang
