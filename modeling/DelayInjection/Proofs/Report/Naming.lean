import Mathlib.Data.List.DropRight
import DelayInjection.Report.Sink
import DelayInjection.Proofs.Disk.Path

-- The report file of an execution lies beside the configured one: same directory, same extension,
-- and a stem that goes on with the execution id.

namespace DelayInjection

namespace Path

variable {path name text : List Char}

theorem splitName_fileName (h : fileName? path = some name) :
    splitName name = (stem path, extension? path) := by
  rw [stem, extension?, h]
  rfl

theorem parent?_map_components (h : fileName? path = some name) :
    (parent? path).map components = some (components path).dropLast := by
  obtain ⟨directory, hparent, hcomponents⟩ := parent?_components h
  rw [hparent, hcomponents, List.dropLast_concat]
  rfl

-- Another name in place of the file name leaves the components before it as they are.
theorem components_withFileName (h : fileName? path = some name) (htext : IsName text) :
    components (withFileName path text) = (components path).dropLast ++ [.name text] := by
  obtain ⟨directory, hparent, hcomponents⟩ := parent?_components h
  rw [withFileName, h, hparent, hcomponents, List.dropLast_concat]
  exact components_join directory htext

theorem fileName?_withFileName (h : fileName? path = some name) (htext : IsName text) :
    fileName? (withFileName path text) = some text := by
  rw [fileName?_eq_some_iff, components_withFileName h htext, List.getLast?_concat]

-- No text with a dash in it means a directory.
theorem isName_of_dash_mem (hdash : '-' ∈ text) (hslash : '/' ∉ text) : IsName text := by
  refine ⟨ofPiece?_eq_name_iff.mpr ⟨?_, ?_, rfl⟩, hslash⟩
  · rw [isIdle, Bool.or_eq_false_iff, beq_eq_false_iff_ne, beq_eq_false_iff_ne]
    constructor <;> rintro rfl <;> simp at hdash
  · rintro rfl
    simp at hdash

theorem isName_append_stem {suffix : List Char} (hname : IsName name)
    (hcut : Named name (stem path, extension? path)) (hdash : '-' ∈ suffix)
    (hslash : '/' ∉ suffix) : IsName (stem path ++ suffix ++ dotted (extension? path)) := by
  have hwhole := hname.whole
  rw [hcut.name_eq, List.mem_append, not_or] at hwhole
  apply isName_of_dash_mem
  · simp [hdash]
  · simp [hwhole.1, hwhole.2, hslash]

-- What stays and what changes where text is put behind the stem of a file name.
structure Beside (path suffix result : List Char) : Prop where
  components : components result = (components path).dropLast ++
    [.name (stem path ++ suffix ++ dotted (extension? path))]
  directory : (parent? path).map Path.components = some (Path.components path).dropLast
  parent : (parent? result).map Path.components = (parent? path).map Path.components
  extension : extension? result = extension? path
  stem : stem result = stem path ++ suffix
  original : fileName? path = some ((Path.stem result).rdrop suffix.length ++
    dotted (extension? result))

theorem withFileName_beside {suffix : List Char} (h : fileName? path = some name)
    (hdash : '-' ∈ suffix) (hslash : '/' ∉ suffix) (hdot : '.' ∉ suffix) :
    Beside path suffix
      (withFileName path (stem path ++ suffix ++ dotted (extension? path))) := by
  have hcut := splitName_eq_iff.mp (splitName_fileName h)
  obtain ⟨-, -, -, hname, -⟩ := fileName?_cases h
  have htext := isName_append_stem hname hcut hdash hslash
  have hcomponents := components_withFileName h htext
  have hfile := fileName?_withFileName h htext
  -- the new name is cut where the old one is
  have hsplit := splitName_eq_iff.mpr (hcut.append_stem hdot)
  obtain ⟨hstem, hextension⟩ := Prod.mk.inj ((splitName_fileName hfile).symm.trans hsplit)
  exact {
    components := hcomponents
    directory := parent?_map_components h
    parent := by
      rw [parent?_map_components hfile, parent?_map_components h, hcomponents,
        List.dropLast_concat]
    extension := hextension
    stem := hstem
    original := by rw [hstem, hextension, List.rdrop_append_length, h, hcut.name_eq] }

end Path

namespace ReportFile

theorem pathFor_beside (path executionId : String) (name : List Char)
    (hname : (Path.components path.toList).getLast? = some (.name name))
    (hslash : '/' ∉ executionId.toList) (hdot : '.' ∉ executionId.toList) :
    Path.Beside path.toList ('-' :: executionId.toList) (pathFor path executionId).toList := by
  have hdash : '-' ∈ '-' :: executionId.toList := List.mem_cons_self
  have hbeside := Path.withFileName_beside (Path.fileName?_eq_some_iff.mpr hname) hdash
    (by simp [hslash]) (by simp [hdot])
  have hresult : (pathFor path executionId).toList = Path.withFileName path.toList
      (Path.stem path.toList ++ '-' :: executionId.toList ++
        Path.dotted (Path.extension? path.toList)) := by
    rw [pathFor, String.toList_ofList]
    cases Path.extension? path.toList <;> simp [Path.dotted]
  rw [hresult]
  exact hbeside

-- A hidden file with two dots behind it, below a doubled slash and before a dot that names
-- nothing.
theorem pathFor_beside_hidden :
    (Path.components "./logs//.report.tar.gz/.".toList).getLast? =
        some (.name ".report.tar.gz".toList) ∧
      Path.Beside "./logs//.report.tar.gz/.".toList "-42".toList
        (pathFor "./logs//.report.tar.gz/." "42").toList := by
  have hname : (Path.components "./logs//.report.tar.gz/.".toList).getLast? =
      some (.name ".report.tar.gz".toList) := by decide
  exact ⟨hname, pathFor_beside "./logs//.report.tar.gz/." "42" _ hname (by decide) (by decide)⟩

example : pathFor "./logs//.report.tar.gz/." "42" = "./logs/.report.tar-42.gz" := by decide

end ReportFile

end DelayInjection
