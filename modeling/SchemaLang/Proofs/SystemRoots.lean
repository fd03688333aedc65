import SchemaLang.Proofs.RootLines

/-!
# Roots in bytes

Roots are kept as the texts that they are shown as, so only those come back whose bytes
are the bytes of a text. No byte of a character is a slash unless the character is one, so
the bytes of a text have the parts of the text, and a path with such parts is made of the
bytes of a text too. What holds of roots that are texts thereby holds of those in bytes.
-/

set_option autoImplicit false

namespace SchemaLang

/-! ## Bytes of texts -/

namespace Text

variable {cs ds : List Char} {c : Char} {b : UInt8}

theorem encode_cons (c : Char) (cs : List Char) :
    encode (c :: cs) = String.utf8EncodeChar c ++ encode cs := List.flatMap_cons

theorem encode_append (cs ds : List Char) : encode (cs ++ ds) = encode cs ++ encode ds :=
  List.flatMap_append

theorem decode_append (front bytes : List UInt8) :
    decode front.length (front ++ bytes) = decode 0 bytes := by
  induction front with
  | nil => rfl
  | cons b front ih => exact ih

theorem decode_encode (cs : List Char) : decode 0 (encode cs) = cs := by
  induction cs with
  | nil => rfl
  | cons c cs ih =>
    obtain ⟨b, tail, hc⟩ := List.exists_cons_of_ne_nil (String.utf8EncodeChar_ne_nil (c := c))
    have hsize : c.utf8Size - 1 = tail.length := by
      rw [← String.length_utf8EncodeChar, hc, List.length_cons, Nat.add_sub_cancel]
    have hfirst : (b :: (tail ++ encode cs)).toByteArray.utf8DecodeChar? 0 = some c := by
      rw [← List.cons_append, ← hc, ← encode_cons]
      exact List.utf8DecodeChar?_utf8Encode_cons
    rw [encode_cons, hc, List.cons_append, decode, hfirst]
    dsimp only
    rw [hsize, decode_append, ih]

theorem encode_injective : Function.Injective encode := fun cs ds h => by
  rw [← decode_encode cs, h, decode_encode]

theorem toNat_eq_of_mem (h : b ∈ String.utf8EncodeChar c) (hb : b.toNat < 128) :
    c.toNat = b.toNat := by
  unfold String.utf8EncodeChar at h
  dsimp only at h
  split_ifs at h
  · obtain rfl := List.mem_singleton.mp h
    have hvalue : c.toNat = c.val.toNat := rfl
    rw [UInt8.toNat_ofNat']
    omega
  -- the bytes of all other characters are greater
  all_goals
    exfalso
    simp only [List.mem_cons, List.not_mem_nil, or_false] at h
  · rcases h with rfl | rfl <;> rw [UInt8.toNat_ofNat'] at hb <;> omega
  · rcases h with rfl | rfl | rfl <;> rw [UInt8.toNat_ofNat'] at hb <;> omega
  · rcases h with rfl | rfl | rfl | rfl <;> rw [UInt8.toNat_ofNat'] at hb <;> omega

theorem encode_intercalate (pieces : List (List Char)) :
    encode (['/'].intercalate pieces) = [SystemPath.slash].intercalate (pieces.map encode) := by
  induction pieces with
  | nil => rfl
  | cons first others ih =>
    cases others with
    | nil => simp [List.intercalate]
    | cons second others =>
      rw [List.intercalate_cons_cons, encode_append, encode_append, ih]
      simp only [List.map_cons, List.intercalate_cons_cons]
      rfl

theorem slash_not_mem_encode (h : '/' ∉ cs) : SystemPath.slash ∉ encode cs := fun hslash => by
  obtain ⟨c, hc, hmem⟩ := List.mem_flatMap.mp hslash
  obtain rfl : c = '/' := Char.toNat_inj.mp (toNat_eq_of_mem hmem (by decide))
  exact h hc

/-- The pieces of a text between slashes are those of its bytes. -/
theorem splitOn_encode (cs : List Char) :
    (encode cs).splitOn SystemPath.slash = (cs.splitOn '/').map encode := by
  have hcs : ['/'].intercalate (cs.splitOn '/') = cs := List.intercalate_splitOn '/'
  rw [← hcs, encode_intercalate, List.splitOn_intercalate, hcs]
  · exact List.forall_mem_map.mpr fun piece hpiece =>
      slash_not_mem_encode (not_mem_of_mem_splitOn hpiece)
  · simp [List.splitOn_ne_nil]

end Text

/-! ## Paths that are texts -/

namespace PathPart

def map {τ υ : Type} (f : τ → υ) : PathPart τ → PathPart υ
  | root => root
  | here => here
  | up => up
  | name text => name (f text)

theorem map_injective {τ υ : Type} {f : τ → υ} (h : Function.Injective f) :
    Function.Injective (map f) := by
  intro part part' heq
  cases part with
  | name text =>
    cases part' with
    | name text' => exact congrArg name (h (name.inj heq))
    | _ => cases heq
  | _ => cases part' <;> first | rfl | cases heq

end PathPart

namespace SystemPath

variable {p : SystemPath} {s : String}

def IsText (p : SystemPath) : Prop := ∃ text, p = ofText text

def bytesOf (s : String) : List UInt8 := Text.encode s.toList

theorem bytesOf_injective : Function.Injective bytesOf :=
  Text.encode_injective.comp fun _ _ => String.toList_inj.mp

theorem display_ofText (s : String) : (ofText s).display = s := by
  rw [display, ofText, Text.decode_encode, String.ofList_toList]

theorem pieces_ofText (s : String) : (ofText s).pieces = (Path.mk s).pieces.map bytesOf := by
  rw [pieces, ofText, Text.splitOn_encode, Path.pieces, Text.split, List.map_map]
  refine List.map_congr_left fun piece _ => ?_
  rw [Function.comp_apply, bytesOf, String.toList_ofList]

theorem isAbsolute_ofText (s : String) : (ofText s).isAbsolute = (Path.mk s).isAbsolute := by
  rw [isAbsolute, Path.isAbsolute, ofText]
  cases s.toList with
  | nil => rfl
  | cons c cs =>
    obtain ⟨b, tail, hc⟩ := List.exists_cons_of_ne_nil (String.utf8EncodeChar_ne_nil (c := c))
    rw [Text.encode_cons, hc, List.cons_append, List.head?_cons, List.head?_cons,
      Bool.eq_iff_iff, beq_iff_eq, beq_iff_eq, Option.some.injEq, Option.some.injEq]
    constructor
    · rintro rfl
      exact Char.toNat_inj.mp (Text.toNat_eq_of_mem (hc ▸ List.mem_cons_self) (by decide))
    · rintro rfl
      exact (List.cons.inj hc).1.symm

theorem ofPiece?_bytesOf (s : String) :
    ofPiece? (bytesOf s) = (PathPart.ofPiece? s).map (PathPart.map bytesOf) := by
  have hne {t : String} (h : s = t → False) : bytesOf s ≠ bytesOf t :=
    fun heq => h (bytesOf_injective heq)
  unfold PathPart.ofPiece?
  split
  · rfl
  · rfl
  · rfl
  · rename_i hblank hhere hup
    have hnone : ¬(bytesOf s = [] ∨ bytesOf s = [dot]) := not_or.mpr ⟨hne hblank, hne hhere⟩
    have hname : bytesOf s ≠ [dot, dot] := hne hup
    rw [ofPiece?, if_neg hnone, if_neg hname]
    rfl

theorem parts_ofText (s : String) :
    (ofText s).parts = (Path.mk s).parts.map (PathPart.map bytesOf) := by
  have hhere : (ofText s).pieces.head? = some [dot] ↔ (Path.mk s).pieces.head? = some "." := by
    rw [pieces_ofText, List.head?_map, show [dot] = bytesOf "." from rfl, Option.map_eq_some_iff]
    exact ⟨fun ⟨piece, hpiece, h⟩ => bytesOf_injective h ▸ hpiece, fun h => ⟨_, h, rfl⟩⟩
  rw [parts, Path.parts, isAbsolute_ofText]
  simp only [hhere, List.map_append]
  congr 1
  · split
    · rfl
    · split <;> rfl
  · rw [pieces_ofText, List.filterMap_map, List.map_filterMap]
    exact List.filterMap_congr fun piece _ => ofPiece?_bytesOf piece

theorem same_iff (p q : SystemPath) : p.same q = true ↔ p.parts = q.parts := by
  rw [same, beq_iff_eq]

theorem same_ofText (s t : String) : (ofText s).same (ofText t) = (Path.mk s).same ⟨t⟩ := by
  rw [Bool.eq_iff_iff, same_iff, Path.same_iff, parts_ofText, parts_ofText,
    (List.map_injective_iff.mpr (PathPart.map_injective bytesOf_injective)).eq_iff]

/-- The bytes of a piece that is no part of its own, or a part of a text, are those of a text. -/
theorem exists_bytesOf_of_piece {piece : List UInt8} (hpiece : piece ∈ p.pieces)
    (h : p.same (ofText s) = true) : ∃ cs, Text.encode cs = piece := by
  rw [same_iff, parts_ofText] at h
  have hpart : ∀ part ∈ ofPiece? piece, part ∈ (Path.mk s).parts.map (PathPart.map bytesOf) := by
    intro part hpart
    rw [← h, parts]
    exact List.mem_append_right _ (List.mem_filterMap.mpr ⟨piece, hpiece, hpart⟩)
  unfold ofPiece? at hpart
  split at hpart
  · rename_i hblank
    rcases hblank with rfl | rfl
    · exact ⟨[], rfl⟩
    · exact ⟨['.'], rfl⟩
  · split at hpart
    · rename_i hup
      exact ⟨['.', '.'], hup.symm⟩
    · obtain ⟨part, -, hname⟩ := List.mem_map.mp (hpart _ rfl)
      cases part <;> cases hname
      exact ⟨_, rfl⟩

theorem isText_of_same (h : p.same (ofText s) = true) : p.IsText := by
  have hpieces : p.pieces ∈ Set.range (List.map Text.encode) := by
    rw [Set.range_list_map]
    exact fun piece hpiece => exists_bytesOf_of_piece hpiece h
  obtain ⟨pieces, hpieces⟩ := hpieces
  refine ⟨String.ofList (['/'].intercalate pieces), ?_⟩
  rw [ofText, String.toList_ofList, Text.encode_intercalate, hpieces, SystemPath.pieces,
    List.intercalate_splitOn]

end SystemPath

/-! ## Roots that are texts -/

namespace RootList

variable {r : SearchRoots}

def inBytes (r : SearchRoots) : RootList SystemPath :=
  ⟨r.paths.map fun p => .ofText p.spelling⟩

theorem push_inBytes (r : SearchRoots) (p : Path) :
    (inBytes r).push (.ofText p.spelling) = inBytes (r.push p) := by
  have hcontains : (inBytes r).contains (.ofText p.spelling) = r.contains p := by
    rw [contains, contains, inBytes, List.any_map]
    exact congrArg r.paths.any (funext fun q => SystemPath.same_ofText q.spelling p.spelling)
  rw [push, push, hcontains]
  split
  · rfl
  · rw [inBytes, inBytes, List.map_append]
    rfl

theorem ofList_inBytes (ps : List Path) :
    ofList (ps.map fun p => SystemPath.ofText p.spelling) = inBytes (ofList ps) := by
  have hfold (r : SearchRoots) : (ps.map fun p => SystemPath.ofText p.spelling).foldl push
      (inBytes r) = inBytes (ps.foldl push r) := by
    induction ps generalizing r with
    | nil => rfl
    | cons p ps ih => rw [List.map_cons, List.foldl_cons, push_inBytes, ih, List.foldl_cons]
  exact hfold empty

theorem parse_inBytes (text : String) :
    (parse text : RootList SystemPath) = inBytes (SearchRoots.parse text) := by
  rw [SearchRoots.parse, parse, parse, ← ofList_inBytes, List.map_filterMap]
  refine congrArg ofList (List.filterMap_congr fun line _ => ?_)
  split <;> rfl

theorem format_inBytes (r : SearchRoots) : (inBytes r).format = r.format := by
  rw [format, format, inBytes, List.map_map]
  exact congrArg _ (List.map_congr_left fun p _ => SystemPath.display_ofText p.spelling)

theorem comesBack_inBytes : (inBytes r).ComesBack ↔ r.ComesBack := by
  rw [ComesBack, ComesBack, format_inBytes, parse_inBytes, inBytes, inBytes,
    List.forall₂_map_left_iff, List.forall₂_map_right_iff]
  simp only [RootPath.same, SystemPath.same_ofText]
  rfl

theorem distinct_inBytes : (inBytes r).Distinct ↔ r.Distinct := by
  rw [Distinct, Distinct, inBytes, List.pairwise_map]
  simp only [RootPath.same, SystemPath.same_ofText]

theorem exists_inBytes {r : RootList SystemPath} (h : ∀ p ∈ r.paths, p.IsText) :
    ∃ s, r = inBytes s := by
  have hpaths : r.paths ∈ Set.range (List.map fun p : Path => SystemPath.ofText p.spelling) := by
    rw [Set.range_list_map]
    intro p hp
    obtain ⟨text, rfl⟩ := h p hp
    exact ⟨⟨text⟩, rfl⟩
  obtain ⟨ps, hps⟩ := hpaths
  exact ⟨⟨ps⟩, RootList.ext hps.symm⟩

/-- Roots that come back are those that were read, so they are texts. -/
theorem isText_of_comesBack {r : RootList SystemPath} (h : r.ComesBack) :
    ∀ p ∈ r.paths, p.IsText := by
  rw [ComesBack, parse_inBytes, inBytes, List.forall₂_map_left_iff] at h
  refine (forall_of_forall₂ (P := fun _ => True) h fun q p hsame => ⟨trivial, ?_⟩).2
  have hparts := (SystemPath.same_iff _ _).mp hsame
  exact SystemPath.isText_of_same ((SystemPath.same_iff _ _).mpr hparts.symm)

end RootList

end SchemaLang
