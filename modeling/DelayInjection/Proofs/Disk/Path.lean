import Mathlib.Data.List.Basic
import DelayInjection.Disk.Path
import DelayInjection.Proofs.Text.Cuts

-- The components of a path, and what its file name, its parent, and the stem and extension of its
-- file name are in terms of them. Repeated slashes, slashes at the end, and dots behind the start
-- name nothing.

namespace DelayInjection

namespace Text

-- Only a single empty piece is joined to nothing.
theorem joinWith_ne_nil {separator : Char} {pieces : List (List Char)}
    (hwhole : ∀ piece ∈ pieces, separator ∉ piece) (hne : pieces ≠ []) (hempty : pieces ≠ [[]]) :
    joinWith [separator] pieces ≠ [] := by
  intro h
  have hsplit := splitAll_joinWith hne hwhole
  rw [h] at hsplit
  exact hempty hsplit.symm

end Text

namespace Path

inductive Component
  | root
  | here
  | up
  | name (text : List Char)
deriving DecidableEq

-- What a piece between slashes names.
def Component.ofPiece? (piece : List Char) : Option Component :=
  if isIdle piece then none else if piece = ['.', '.'] then some .up else some (.name piece)

-- What stands before the pieces: the root, or a dot of its own at the start.
def start (path : List Char) : List Component :=
  if path.head? = some '/' then [.root]
  else if (Text.splitAll '/' path).head? = some ['.'] then [.here] else []

def components (path : List Char) : List Component :=
  start path ++ (Text.splitAll '/' path).filterMap Component.ofPiece?

-- A name that a component can have: not empty, no dots that mean a directory, and no slash.
structure IsName (name : List Char) : Prop where
  named : Component.ofPiece? name = some (.name name)
  whole : '/' ∉ name

section

variable {path piece name : List Char}

theorem ofPiece?_eq_none_iff : Component.ofPiece? piece = none ↔ isIdle piece = true := by
  rw [Component.ofPiece?]
  split
  · simp [*]
  · rename_i hidle
    split <;> simp [hidle]

theorem ofPiece?_eq_name_iff :
    Component.ofPiece? piece = some (.name name) ↔
      isIdle piece = false ∧ piece ≠ ['.', '.'] ∧ piece = name := by
  rw [Component.ofPiece?]
  split
  · simp [*]
  · rename_i hidle
    rw [Bool.not_eq_true] at hidle
    split <;> simp [*]

theorem filterMap_ofPiece?_of_idle {pieces : List (List Char)}
    (h : ∀ piece ∈ pieces, isIdle piece = true) : pieces.filterMap Component.ofPiece? = [] :=
  List.filterMap_eq_nil_iff.mpr fun piece hp => ofPiece?_eq_none_iff.mpr (h piece hp)

theorem components_name (h : IsName name) : components name = [.name name] := by
  have hsplit := Text.splitAll_of_not_mem h.whole
  have hhead : name.head? ≠ some '/' := fun he => h.whole (List.mem_of_mem_head? he)
  have hdot : name ≠ ['.'] := by
    rintro rfl
    exact absurd h.named (by decide)
  rw [components, start, if_neg hhead, hsplit]
  simp [hdot, h.named]

-- Behind a slash the pieces go on as they are.
theorem components_append_slash (front back : List Char) :
    components (front ++ '/' :: back) =
      components (front ++ ['/']) ++ (Text.splitAll '/' back).filterMap Component.ofPiece? := by
  have hstart : start (front ++ '/' :: back) = start (front ++ ['/']) := by
    simp only [start, Text.splitAll_append, List.head?_append, List.head?_cons]
    cases hfront : Text.splitAll '/' front with
    | nil => exact absurd hfront (Text.splitAll_ne_nil '/' front)
    | cons first others => rfl
  have hempty : (Text.splitAll '/' []).filterMap Component.ofPiece? = [] := by decide
  rw [components, components, hstart, Text.splitAll_append, Text.splitAll_append,
    List.filterMap_append, List.filterMap_append, hempty, List.append_nil, List.append_assoc]

theorem components_slash_end {front : List Char} (h : front ≠ []) :
    components (front ++ ['/']) = components front := by
  obtain ⟨c, rest, rfl⟩ := List.exists_cons_of_ne_nil h
  have hempty : (Text.splitAll '/' []).filterMap Component.ofPiece? = [] := by decide
  rw [components, components, start, start, Text.splitAll_append, List.filterMap_append, hempty,
    List.append_nil]
  cases hfront : Text.splitAll '/' (c :: rest) with
  | nil => exact absurd hfront (Text.splitAll_ne_nil '/' (c :: rest))
  | cons first others => rfl

theorem components_append_pieces {front : List Char} {pieces : List (List Char)} (h : front ≠ [])
    (hne : pieces ≠ []) (hwhole : ∀ piece ∈ pieces, '/' ∉ piece) :
    components (front ++ '/' :: Text.joinWith ['/'] pieces) =
      components front ++ pieces.filterMap Component.ofPiece? := by
  rw [components_append_slash, components_slash_end h, Text.splitAll_joinWith hne hwhole]

-- A name put under a directory is the last component there.
theorem components_join (directory : List Char) (h : IsName name) :
    components (join directory name) = components directory ++ [.name name] := by
  have hrelative : isAbsolute name = false := by
    rw [isAbsolute, beq_eq_false_iff_ne]
    exact fun he => h.whole (List.mem_of_mem_head? he)
  have hname : (Text.splitAll '/' name).filterMap Component.ofPiece? = [.name name] := by
    rw [Text.splitAll_of_not_mem h.whole]
    simp [h.named]
  rw [join, hrelative, if_neg Bool.false_ne_true]
  rcases List.eq_nil_or_concat' directory with rfl | ⟨front, c, rfl⟩
  · exact components_name h
  · by_cases hc : c = '/'
    · subst hc
      rw [if_pos (by simp), List.append_assoc, List.singleton_append, components_append_slash,
        hname]
    · rw [if_neg (by simp [hc]), components_append_slash, hname, components_slash_end (by simp)]

-- The four kinds of paths by what they lead with.
theorem lead_cases (path : List Char) :
    (∃ rest, path = '/' :: rest ∧ lead path = (['/'], rest)) ∨
      (path = ['.'] ∧ lead path = (['.'], [])) ∨
      (∃ rest, path = '.' :: '/' :: rest ∧ lead path = (['.'], '/' :: rest)) ∨
      (start path = [] ∧ lead path = ([], path)) := by
  unfold lead
  split
  · rename_i rest
    exact .inl ⟨rest, rfl, rfl⟩
  · exact .inr (.inl ⟨rfl, rfl⟩)
  · rename_i rest
    exact .inr (.inr (.inl ⟨rest, rfl, rfl⟩))
  · rename_i hroot hdot hslash
    refine .inr (.inr (.inr ⟨?_, rfl⟩))
    have hhead : path.head? ≠ some '/' := by
      intro he
      obtain ⟨rest, rfl⟩ := List.head?_eq_some_iff.mp he
      exact hroot rest rfl
    -- a first piece that is a dot is the whole path, or a slash follows
    have hpiece : (Text.splitAll '/' path).head? ≠ some ['.'] := by
      intro he
      obtain ⟨pieces, hpieces⟩ := List.head?_eq_some_iff.mp he
      have hpath := Text.joinWith_splitAll '/' path
      rw [hpieces] at hpath
      cases pieces with
      | nil => exact hdot hpath.symm
      | cons next others => exact hslash _ hpath.symm
    rw [start, if_neg hhead, if_neg hpiece]

theorem lead_append (path : List Char) : (lead path).1 ++ (lead path).2 = path := by
  rcases lead_cases path with ⟨rest, rfl, h⟩ | ⟨rfl, h⟩ | ⟨rest, rfl, h⟩ | ⟨-, h⟩ <;> rw [h] <;> rfl

theorem components_lead (path : List Char) : components (lead path).1 = start path := by
  rcases lead_cases path with ⟨rest, rfl, h⟩ | ⟨rfl, h⟩ | ⟨rest, rfl, h⟩ | ⟨hstart, h⟩ <;> rw [h]
  · rfl
  · rfl
  · rw [start, if_neg (by simp), if_pos]
    · rfl
    · have hsplit : Text.splitAll '/' (['.'] ++ '/' :: rest) = ['.'] :: Text.splitAll '/' rest :=
        Text.splitAll_append_cons (by decide)
      exact congrArg List.head? hsplit
  · rw [hstart]
    rfl

theorem components_eq_start_append (path : List Char) :
    components path =
      start path ++ (Text.splitAll '/' (lead path).2).filterMap Component.ofPiece? := by
  rw [components]
  rcases lead_cases path with ⟨rest, rfl, h⟩ | ⟨rfl, h⟩ | ⟨rest, rfl, h⟩ | ⟨-, h⟩ <;> rw [h]
  · rw [Text.splitAll, if_pos rfl]
    rfl
  · rfl
  · rw [show '.' :: '/' :: rest = ['.'] ++ '/' :: rest from rfl,
      Text.splitAll_append_cons (by decide), Text.splitAll, if_pos rfl]
    rfl

-- Pieces and the idle ones at their end.
theorem exists_idle_end (pieces : List (List Char)) :
    ∃ kept idle, pieces = kept ++ idle ∧ (∀ piece ∈ idle, isIdle piece = true) ∧
      (∀ last ∈ kept.getLast?, isIdle last = false) ∧
      pieces.reverse.dropWhile isIdle = kept.reverse := by
  refine ⟨(pieces.reverse.dropWhile isIdle).reverse, (pieces.reverse.takeWhile isIdle).reverse,
    ?_, fun piece hp => List.mem_takeWhile_imp (List.mem_reverse.mp hp), fun last hlast => ?_,
    (List.reverse_reverse _).symm⟩
  · rw [← List.reverse_append, List.takeWhile_append_dropWhile, List.reverse_reverse]
  · have hhead := List.head?_dropWhile_not isIdle pieces.reverse
    rw [List.getLast?_reverse] at hlast
    rw [hlast] at hhead
    exact hhead

-- The pieces up to the last one that names something, and the idle ones behind it.
theorem reversedPieces_cases (path : List Char) :
    (reversedPieces path = [] ∧ components path = start path) ∨
      ∃ before piece idle, Text.splitAll '/' (lead path).2 = before ++ piece :: idle ∧
        isIdle piece = false ∧ reversedPieces path = piece :: before.reverse ∧
        components path = start path ++ before.filterMap Component.ofPiece? ++
          (Component.ofPiece? piece).toList := by
  obtain ⟨kept, idle, hsplit, hidle, hlast, hreversed⟩ :=
    exists_idle_end (Text.splitAll '/' (lead path).2)
  have hcomponents : components path = start path ++ kept.filterMap Component.ofPiece? := by
    rw [components_eq_start_append, hsplit, List.filterMap_append,
      filterMap_ofPiece?_of_idle hidle, List.append_nil]
  rcases List.eq_nil_or_concat' kept with rfl | ⟨before, piece, rfl⟩
  · exact .inl ⟨hreversed, by simpa using hcomponents⟩
  · refine .inr ⟨before, piece, idle, ?_, hlast piece (by simp), ?_, ?_⟩
    · rw [hsplit, List.append_assoc, List.singleton_append]
    · rw [reversedPieces, hreversed, List.reverse_concat]
    · rw [hcomponents, List.filterMap_append, List.append_assoc]
      cases hpiece : Component.ofPiece? piece <;> simp [hpiece]

theorem getLast?_start_ne_name (path name : List Char) :
    (start path).getLast? ≠ some (.name name) := by
  rw [start]
  split
  · simp
  · split <;> simp

-- A path names a file exactly where its last component is a name.
theorem fileName?_eq_some_iff :
    fileName? path = some name ↔ (components path).getLast? = some (.name name) := by
  rcases reversedPieces_cases path with
    ⟨hr, hcomponents⟩ | ⟨before, piece, idle, -, hpiece, hr, hcomponents⟩
  · rw [fileName?, hr, hcomponents]
    simp [getLast?_start_ne_name]
  · rw [fileName?, hr, hcomponents, Component.ofPiece?, hpiece]
    by_cases hup : piece = ['.', '.'] <;> simp [hup]

-- Where a path names a file, the pieces before the name are those of the parent.
theorem fileName?_cases (h : fileName? path = some name) :
    ∃ before idle, Text.splitAll '/' (lead path).2 = before ++ name :: idle ∧ IsName name ∧
      components path = start path ++ before.filterMap Component.ofPiece? ++ [.name name] ∧
      parent? path = some (ofReversed path (before.reverse.dropWhile isIdle)) := by
  rcases reversedPieces_cases path with
    ⟨hr, -⟩ | ⟨before, piece, idle, hsplit, hpiece, hr, hcomponents⟩
  · rw [fileName?, hr] at h
    cases h
  · have hname : piece ≠ ['.', '.'] ∧ piece = name := by
      rw [fileName?, hr] at h
      simpa using h
    obtain ⟨hup, rfl⟩ := hname
    have hnamed := ofPiece?_eq_name_iff.mpr ⟨hpiece, hup, rfl⟩
    have hwhole : '/' ∉ piece :=
      Text.not_mem_of_mem_splitAll (hsplit.symm ▸ List.mem_append_right before List.mem_cons_self)
    refine ⟨before, idle, hsplit, ⟨hnamed, hwhole⟩, ?_, ?_⟩
    · rw [hcomponents, hnamed]
      rfl
    · rw [parent?, hr]

-- The pieces that a directory is put together from are its components behind the start.
theorem components_ofReversed {before after : List (List Char)}
    (hsplit : Text.splitAll '/' (lead path).2 = before ++ after) (hafter : after ≠ []) :
    components (ofReversed path (before.reverse.dropWhile isIdle)) =
      start path ++ before.filterMap Component.ofPiece? := by
  obtain ⟨kept, idle, rfl, hidle, hlast, hreversed⟩ := exists_idle_end before
  rw [hreversed, ofReversed, List.reverse_reverse, List.filterMap_append,
    filterMap_ofPiece?_of_idle hidle, List.append_nil]
  by_cases hkept : kept = []
  · subst hkept
    simpa [Text.joinWith] using components_lead path
  · -- behind the directory the path goes on with the idle pieces and what is left
    rw [List.append_assoc] at hsplit
    have hback : idle ++ after ≠ [] := List.append_ne_nil_of_right_ne_nil idle hafter
    have hwhole : ∀ piece ∈ kept ++ (idle ++ after), '/' ∉ piece := by
      rw [← hsplit]
      exact fun piece => Text.not_mem_of_mem_splitAll
    have hjoined : Text.joinWith ['/'] kept ≠ [] := by
      refine Text.joinWith_ne_nil
        (fun piece hp => hwhole piece (List.mem_append_left _ hp)) hkept ?_
      rintro rfl
      cases hlast [] rfl
    have hpath : path = ((lead path).1 ++ Text.joinWith ['/'] kept) ++
        '/' :: Text.joinWith ['/'] (idle ++ after) := by
      conv_lhs => rw [← lead_append path, ← Text.joinWith_splitAll '/' (lead path).2, hsplit,
        Text.joinWith_append hkept hback]
      simp
    have hcomponents := components_append_pieces
      (List.append_ne_nil_of_right_ne_nil (lead path).1 hjoined) hback
      fun piece hp => hwhole piece (List.mem_append_right _ hp)
    rw [← hpath, components_eq_start_append, hsplit, List.filterMap_append,
      ← List.append_assoc] at hcomponents
    exact (List.append_cancel_right hcomponents).symm

-- The parent is the path up to the last component.
theorem parent?_components (h : fileName? path = some name) :
    ∃ directory, parent? path = some directory ∧
      components path = components directory ++ [.name name] := by
  obtain ⟨before, idle, hsplit, -, hcomponents, hparent⟩ := fileName?_cases h
  refine ⟨_, hparent, ?_⟩
  rw [hcomponents, components_ofReversed hsplit (List.cons_ne_nil name idle)]

end

-- How a file name is cut: whole where no dot stands behind its first character, and otherwise at
-- its last dot.
inductive Named : List Char → List Char × Option (List Char) → Prop
  | whole {name : List Char} (h : '.' ∉ name.tail) : Named name (name, none)
  | cut {stem extension : List Char} (hstem : stem ≠ []) (hlast : '.' ∉ extension) :
      Named (stem ++ '.' :: extension) (stem, some extension)

-- What an extension adds to the stem.
def dotted : Option (List Char) → List Char
  | none => []
  | some extension => '.' :: extension

section

variable {name suffix : List Char} {parts : List Char × Option (List Char)}

theorem splitName_of_not_mem (h : '.' ∉ name) : splitName name = (name, none) := by
  have hback : name.reverse.dropWhile (· != '.') = [] :=
    List.dropWhile_eq_nil_iff.mpr fun c hc => bne_iff_ne.mpr fun he =>
      h (he ▸ List.mem_reverse.mp hc)
  rw [splitName, hback]

theorem splitName_append_dot (front : List Char) {extension : List Char} (h : '.' ∉ extension) :
    splitName (front ++ '.' :: extension) =
      if front = [] then ('.' :: extension, none) else (front, some extension) := by
  have hall : ∀ c ∈ extension.reverse, (c != '.') = true := fun c hc =>
    bne_iff_ne.mpr fun he => h (he ▸ List.mem_reverse.mp hc)
  have hback : (front ++ '.' :: extension).reverse = extension.reverse ++ '.' :: front.reverse := by
    simp
  rw [splitName, hback, List.dropWhile_append_of_pos hall, List.takeWhile_append_of_pos hall]
  rcases List.eq_nil_or_concat' front with rfl | ⟨before, c, rfl⟩ <;> simp

-- The cut is the one way to have it so.
theorem splitName_eq_iff : splitName name = parts ↔ Named name parts := by
  constructor
  · rintro rfl
    by_cases hdot : '.' ∈ name
    · obtain ⟨extension, front, hback, hlast⟩ :=
        List.eq_append_cons_of_mem (List.mem_reverse.mpr hdot)
      obtain rfl : name = front.reverse ++ '.' :: extension.reverse := by
        rw [← List.reverse_reverse name, hback]
        simp
      have hlast' : '.' ∉ extension.reverse := fun hc => hlast (List.mem_reverse.mp hc)
      rw [splitName_append_dot _ hlast']
      split
      · rename_i hfront
        rw [hfront]
        exact .whole hlast'
      · rename_i hfront
        exact .cut hfront hlast'
    · rw [splitName_of_not_mem hdot]
      exact .whole fun hc => hdot (List.mem_of_mem_tail hc)
  · intro h
    cases h with
    | whole h =>
        by_cases hhead : name.head? = some '.'
        · obtain ⟨rest, rfl⟩ := List.head?_eq_some_iff.mp hhead
          exact splitName_append_dot [] h
        · apply splitName_of_not_mem
          cases name with
          | nil => exact List.not_mem_nil
          | cons c rest =>
              rw [List.mem_cons, not_or]
              exact ⟨fun he => hhead (he ▸ rfl), h⟩
    | cut hstem hlast => rw [splitName_append_dot _ hlast, if_neg hstem]

-- The stem and the extension make up the name.
theorem Named.name_eq (h : Named name parts) : name = parts.1 ++ dotted parts.2 := by
  cases h with
  | whole h => exact (List.append_nil _).symm
  | cut hstem hlast => rfl

-- Text without dots put behind the stem belongs to the stem.
theorem Named.append_stem (h : Named name parts) (hdot : '.' ∉ suffix) :
    Named (parts.1 ++ suffix ++ dotted parts.2) (parts.1 ++ suffix, parts.2) := by
  cases h with
  | whole h =>
      rw [dotted, List.append_nil]
      refine .whole fun hc => ?_
      cases name with
      | nil => exact hdot (List.mem_of_mem_tail hc)
      | cons c rest => exact (List.mem_append.mp hc).elim h hdot
  | cut hstem hlast => exact .cut (List.append_ne_nil_of_left_ne_nil hstem suffix) hlast

end

end Path

end DelayInjection
